import Kiznix.MallocSystem

/-! `dlfree`: the chunk joins the free chunks and the top chunk next to it, and goes to a bin. -/

namespace Kiznix.Malloc

open ByteMemory BlockRow
open Switch (Arch)

variable {a : Arch} {m m' s s' : State} {row row' : List (Block Kind)} {k : Kind} {p q n t N nb : Nat}
  {F : Nat → Nat → Prop}

/-! ### Segments that cannot be released -/

theorem Stored.restore (h : Stored a m fun q t => (F q t ∧ q ≠ p) ∨ (q = p ∧ t = n)) (hp : F p n)
    (hunique : ∀ t, F p t → t = n) : Stored a m F := by
  refine h.congr fun q t => ?_
  by_cases hq : q = p
  · subst hq
    exact ⟨fun hF => Or.inr ⟨rfl, hunique t hF⟩, fun hor => hor.elim (fun hF => hF.1) fun heq => heq.2 ▸ hp⟩
  · exact ⟨fun hF => Or.inl ⟨hF, hq⟩, fun hor => hor.elim And.left fun heq => absurd heq.1 hq⟩

/-- The designated victim is taken. -/
theorem Stored.takeDv (h : Stored a m F) : Stored a { m with dv := 0, dvsize := 0 } fun q t => F q t ∧ q ≠ m.dv := by
  obtain ⟨bins, hstocked, hbinned⟩ := h
  exact ⟨bins, hstocked.takeDv, ⟨hbinned.smallmap, hbinned.treemap, hbinned.linked⟩⟩

/-- Counters are no part of the invariant. -/
theorem Inv.counters (h : Inv a m row) (trimCheck releaseChecks : Nat) :
    Inv a { m with trimCheck := trimCheck, releaseChecks := releaseChecks } row := by
  obtain ⟨bins, hstocked, hbinned⟩ := h.stored
  refine ⟨(h.idle ?_).1, bins, hstocked, ⟨hbinned.smallmap, hbinned.treemap, hbinned.linked⟩⟩
  exact .of_mem rfl ⟨rfl, rfl, rfl, rfl⟩

section Segments

variable {first r : Segment} {rest all : List Segment} {sp fuel : Nat}

theorem Layout.current_idle (h : Layout a s row) (hcurrent : Current a s row first rest) (hidle : Idle a row s s') :
    Current a s' row first rest := by
  obtain ⟨-, hseg, hend⟩ := State.seg_bounds (a := a) (s := s)
  have hseg' : s'.seg a = s.seg a := by rw [State.seg, State.seg, hidle.same.gm]
  refine ⟨?_, hcurrent.own, hcurrent.chained.congr (h.idle hidle).2.records, ?_, ?_, ?_, hcurrent.below,
    hcurrent.length⟩
  · rw [hseg', ← hcurrent.segment]
    exact State.segment_congr fun x hlow hhigh => hidle.mem x (by omega) (h.solid (by omega))
  · rw [hidle.same.top, hidle.same.topsize]
    exact hcurrent.segments
  · rw [hidle.same.top]
    exact hcurrent.low
  · rw [hidle.same.top, hidle.same.topsize]
    exact hcurrent.ends

/-- The chunk of a segment that is free as a whole. -/
theorem Inv.free_of_open (h : Inv a m row) (hcurrent : Current a m row first rest) (hr : r ∈ rest)
    (hopen : isInuse (m.head a r.base) = false)
    (hend : r.base + r.size - topFootSize a ≤ r.base + chunksize (m.head a r.base)) :
    ∃ n, FreeIn row r.base n ∧ isSmall n = false := by
  have hmem := List.mem_cons_of_mem first hr
  obtain ⟨⟨c, n⟩, hc, hgap, hmapped⟩ := hcurrent.segments.opens r hmem
  have hlarge := hcurrent.segments.large r hmem
  have htag := h.laid.tagged hc
  have hn8 : n % 8 = 0 := htag.multiple hgap
  have hhead : m.head a r.base = n + Kind.gap.flags c := htag.head hgap
  rw [hhead] at hopen hend
  have hused : Kind.gap.flags c ≠ 3 := by
    intro hflags
    rw [hflags, isInuse, pinuseBit] at hopen
    have hopen := of_decide_eq_false hopen
    omega
  have hkind : c = .free := by
    cases c with
    | gap => exact absurd rfl hgap
    | mapped => exact absurd rfl hmapped
    | free => rfl
    | client => exact absurd rfl hused
    | record => exact absurd rfl hused
    | top =>
        -- The top chunk is in the first segment.
        obtain ⟨-, htop, -⟩ := (h.top _ _).mp ⟨_, hc⟩
        have hbelow := hcurrent.below r hr
        have hlow := hcurrent.low
        rw [granularity] at hlarge
        omega
  subst hkind
  refine ⟨n, ⟨_, hc⟩, ?_⟩
  rw [chunksize_add hn8 (by decide), topFootSize_eq] at hend
  rw [granularity] at hlarge
  rw [Bool.eq_false_iff, ne_eq, Bins.isSmall_iff]
  obtain hw | hw := word_cases a <;> rw [hw] at hend <;> omega

theorem Inv.releaseSegment (h : Inv a m row) (hcurrent : Current a m row first rest) (hr : r ∈ rest) :
    ∃ m', releaseSegment a m r = some m' ∧ Inv a m' row ∧ Idle a row m m' := by
  have hchunk : alignAsChunk a r.base = r.base := by
    obtain ⟨b, hb, hgap, -⟩ := hcurrent.segments.opens r (List.mem_cons_of_mem _ hr)
    rw [alignAsChunk, alignOffset_eq_zero ((h.laid.tagged hb).place hgap).2]
    rfl
  rw [Malloc.releaseSegment, hchunk]
  split
  case isFalse => exact ⟨m, rfl, h, .refl⟩
  next hfree =>
  obtain ⟨-, hopen, hend⟩ := hfree
  obtain ⟨n, hF, hbig⟩ := h.free_of_open hcurrent hr (Bool.eq_false_iff.mpr hopen) hend
  have hunique : ∀ t, FreeIn row r.base t → t = n := fun t ht =>
    congrArg Block.size (h.laid.unique ht hF nofun nofun)
  have hout : ∃ m₁, (if r.base = m.dv then some { m with dv := 0, dvsize := 0 } else unlinkLargeChunk a m r.base) =
      some m₁ ∧ Idle a row m m₁ ∧ Stored a m₁ fun q t => FreeIn row q t ∧ q ≠ r.base := by
    split
    · next hdv => exact ⟨_, rfl, .of_mem rfl ⟨rfl, rfl, rfl, rfl⟩, hdv ▸ h.stored.takeDv⟩
    · next hdv =>
        obtain ⟨m₁, heq, hstep, hstored⟩ := h.unlinked h.stored (fun _ _ => id) hF hdv
        rw [unlinkChunk_large hbig] at heq
        exact ⟨m₁, heq, h.idle_of_step hstep, hstored⟩
  obtain ⟨m₁, heq₁, hidle₁, hstored₁⟩ := hout
  obtain ⟨hlayout₁, -⟩ := h.idle hidle₁
  obtain ⟨m₂, heq₂, hstep₂, hstored₂⟩ :=
    hlayout₁.inserted hstored₁ (fun _ _ => And.left) hF fun t ht => ht.2 rfl
  rw [insertChunk, if_neg (by rw [hbig]; exact Bool.false_ne_true)] at heq₂
  have hidle := hidle₁.trans (hlayout₁.idle_of_step hstep₂)
  refine ⟨m₂, ?_, ⟨(h.idle hidle).1, hstored₂.restore hF hunique⟩, hidle⟩
  rw [h.free_size hF]
  dsimp only
  split at heq₁
  · next hdv =>
      rw [if_pos hdv, heq₁]
      exact heq₂
  · next hdv =>
      rw [if_neg hdv, heq₁]
      exact heq₂

theorem Inv.releaseLoop (h : Inv a s row) (hcurrent : Current a s row first all) (hchained : Chained a s row sp rest)
    (hall : ∀ r ∈ rest, r ∈ all) (hfuel : rest.length < fuel) (nsegs : Nat) :
    ∃ s' nsegs', releaseLoop a fuel sp nsegs s = some (s', nsegs') ∧ Inv a s' row ∧ Idle a row s s' := by
  induction rest generalizing s sp fuel nsegs with
  | nil =>
      obtain rfl : sp = 0 := hchained
      cases fuel with
      | zero => exact absurd hfuel (Nat.not_lt_zero _)
      | succ fuel => exact ⟨s, nsegs, if_pos rfl, h, .refl⟩
  | cons r rest ih =>
      obtain ⟨rfl, -, ⟨q, rfl, -⟩, hrest⟩ := hchained
      cases fuel with
      | zero => exact absurd hfuel (Nat.not_lt_zero _)
      | succ fuel =>
          obtain ⟨s₁, heq₁, hinv₁, hidle₁⟩ := h.releaseSegment hcurrent (hall _ List.mem_cons_self)
          obtain ⟨s₂, nsegs₂, heq₂, hinv₂, hidle₂⟩ := ih hinv₁ (h.current_idle hcurrent hidle₁)
            (hrest.congr (h.idle hidle₁).2.records) (fun r hr => hall r (List.mem_cons_of_mem _ hr))
            (Nat.lt_of_succ_lt_succ hfuel) (nsegs + 1)
          refine ⟨s₂, nsegs₂, ?_, hinv₂, hidle₁.trans hidle₂⟩
          rw [Malloc.releaseLoop, if_neg chunk2mem_ne_zero]
          dsimp only
          rw [heq₁]
          exact heq₂

theorem Inv.releaseUnusedSegments (h : Inv a m row) (hinit : m.top ≠ 0) :
    ∃ m', releaseUnusedSegments a m = some m' ∧ Inv a m' row ∧ Idle a row m m' := by
  obtain ⟨first, rest, hcurrent⟩ := h.current hinit
  have hlength := hcurrent.length
  obtain ⟨m₁, nsegs, heq, hinv, hidle⟩ :=
    h.releaseLoop hcurrent hcurrent.chained (fun _ => id) (show rest.length < 2 ^ a.bits by omega) 0
  rw [Malloc.releaseUnusedSegments, hcurrent.segment, heq]
  exact ⟨_, rfl, hinv.counters m₁.trimCheck _, hidle.trans (.of_mem rfl ⟨rfl, rfl, rfl, rfl⟩)⟩

theorem Current.shrinkTop (h : Current a m row first rest) (pad : Nat) : shrinkTop a m pad = some m := by
  obtain ⟨b, hlink⟩ := h.hasSegmentLink first
  rw [Malloc.shrinkTop, h.holding]
  simp only [Option.bind_eq_bind, Option.bind_some, h.segment, hlink, Option.map_some,
    State.seg_bounds.1.ne', if_false, ite_self]

end Segments

theorem Inv.sysTrim (h : Inv a m row) (pad : Nat) :
    ∃ m', sysTrim a m pad = some m' ∧ Inv a m' row ∧ Idle a row m m' := by
  rw [Malloc.sysTrim]
  split
  case isFalse => exact ⟨m, rfl, h, .refl⟩
  next hinit =>
  obtain ⟨first, rest, hcurrent⟩ := h.current hinit.2
  obtain ⟨m₁, heq, hinv, hidle⟩ := h.releaseUnusedSegments hinit.2
  simp only [hcurrent.shrinkTop, heq, Option.bind_eq_bind, Option.bind_some, Option.some.injEq, exists_eq_left']
  split
  · exact ⟨hinv.counters _ m₁.releaseChecks, hidle.trans (.of_mem rfl ⟨rfl, rfl, rfl, rfl⟩)⟩
  · exact ⟨hinv, hidle⟩

/-- A free chunk that no bin has goes to its bin. -/
theorem Layout.binFreed (h : Layout a s row) (hs : Stored a s F)
    (hF : ∀ q t, FreeIn row q t ↔ F q t ∨ (q = p ∧ t = n)) (hnew : ∀ t, ¬ F p t) :
    ∃ s', binFreed a s p n = some s' ∧ Inv a s' row ∧ Idle a row s s' := by
  have hp : FreeIn row p n := (hF p n).mpr (Or.inr ⟨rfl, rfl⟩)
  obtain ⟨s₁, heq, hstep, hstored⟩ := h.inserted hs (fun q t hq => (hF q t).mpr (Or.inl hq)) hp hnew
  have hidle := h.idle_of_step hstep
  have hinv : Inv a s₁ row := ⟨(h.idle hidle).1, hstored.congr hF⟩
  have hinit : s₁.top ≠ 0 := fun hzero => by
    cases (hinv.bare hzero).2 p _ hp
  rw [insertChunk] at heq
  rw [Malloc.binFreed]
  split at heq
  · next hsmall =>
      rw [if_pos hsmall]
      exact ⟨s₁, heq, hinv, hidle⟩
  · next hlarge =>
      rw [if_neg hlarge, heq]
      simp only [Option.bind_eq_bind, Option.bind_some]
      have hless := hinv.counters s₁.trimCheck (sizeSub a s₁.releaseChecks 1)
      have hidle' : Idle a row s { s₁ with releaseChecks := sizeSub a s₁.releaseChecks 1 } :=
        hidle.trans (.of_mem rfl ⟨rfl, rfl, rfl, rfl⟩)
      split
      · obtain ⟨s₂, heq₂, hinv₂, hidle₂⟩ := hless.releaseUnusedSegments hinit
        exact ⟨s₂, heq₂, hinv₂, hidle'.trans hidle₂⟩
      · exact ⟨_, rfl, hless, hidle'⟩

/-! ### The chunk and a free one before it -/

/-- The chunk is no longer a client's, and the others keep theirs. -/
structure Frees (a : Arch) (m : State) (row : List (Block Kind)) (p : Nat) (m' : State) (row' : List (Block Kind)) :
    Prop where
  inv : Inv a m' row'
  moves : Moves a row row' m.mem m'.mem
  live : ∀ q n, Live a row' q n ↔ Live a row q n ∧ q ≠ p
  size : total row' = total row

/-- An idle step before the chunk is freed. -/
theorem Frees.of_idle (h : Frees a s row p m' row') (hmoves : Moves a row row m.mem s.mem) : Frees a m row p m' row' :=
  ⟨h.inv, hmoves.trans h.moves fun _ _ hold _ => hold, h.live, h.size⟩

/-- The blocks behind `pre` that `dlfree` joins first: a client's chunk, which may have a free one before it. -/
structure Joined (a : Arch) (pre mid : List (Block Kind)) (p n : Nat) : Prop where
  kinds : ∀ c ∈ mid, c.kind = .client ∨ c.kind = .free
  last : lastKind (lastKind .gap pre) mid = .client
  clients : ∀ q t, (∃ k, Placed (lastKind .gap pre) (total pre) mid k q ⟨.client, t⟩) ↔ q = p ∧ t = n
  frees : ∀ q t, (∃ k, Placed (lastKind .gap pre) (total pre) mid k q ⟨.free, t⟩) → q = total pre
  opens : (lastKind .gap pre).Open
  fits : Fits a .free (total pre) (total mid)

variable {pre mid mid' post : List (Block Kind)} {c : Kind} {M : Memory}

theorem Joined.next_after (h : Joined a pre mid p n) :
    After (pre ++ ((mid ++ [⟨c, t⟩]) ++ post)) .client (total pre + total mid) ⟨c, t⟩ :=
  after_around.mpr (Or.inr (placed_append.mpr (Or.inr (Or.inl ⟨h.last.symm, rfl, rfl⟩))))

theorem Joined.ne_record (h : Joined a pre mid p n) : ∀ b ∈ mid, b.kind ≠ .record := by
  intro b hb
  obtain hkind | hkind := h.kinds b hb <;> rw [hkind] <;> nofun

theorem Joined.ne_gap (h : Joined a pre mid p n) : ∀ b ∈ mid, b.kind ≠ .gap ∧ b.kind ≠ .top := by
  intro b hb
  obtain hkind | hkind := h.kinds b hb <;> rw [hkind] <;> exact ⟨nofun, nofun⟩

theorem Joined.forall_next {P : Kind → Prop} (j : Joined a pre mid p n) (hclient : P .client) (hfree : P .free)
    (hc : P c) : ∀ b ∈ mid ++ [⟨c, t⟩], P b.kind := by
  intro b hb
  obtain hb | hb := List.mem_append.mp hb
  · obtain hkind | hkind := j.kinds b hb
    · rwa [hkind]
    · rwa [hkind]
  · rwa [List.mem_singleton.mp hb]

/-- A block that is no gap around those that are replaced is one that does not begin between them. -/
theorem Row.around_iff {b : Block Kind} (h : Row a M (pre ++ (mid ++ post))) (hb : b.kind ≠ .gap) :
    (∃ k, Around .gap 0 pre mid post k q b) ↔
      At (pre ++ (mid ++ post)) q b ∧ (q < total pre ∨ total pre + total mid ≤ q) := by
  constructor
  · rintro ⟨k, hk⟩
    exact ⟨at_around.mpr (Or.inl ⟨k, hk⟩), h.around_place hk hb⟩
  · rintro ⟨⟨k, hk⟩, hq⟩
    obtain hout | hplaced := after_around.mp hk
    · exact ⟨k, hout⟩
    · have hsize := ((h.tagged hk).size hb).1
      have hbounds := hplaced.bounds
      omega

/-- Which chunks clients have once the chunk at `p` and the block of kind `c` behind it have been replaced. -/
theorem Joined.live (j : Joined a pre mid p n) (h : Row a M (pre ++ ((mid ++ [⟨c, t⟩]) ++ post)))
    (htotal : total mid' = total (mid ++ [⟨c, t⟩]))
    (hkind : lastKind (lastKind .gap pre) mid' = lastKind (lastKind .gap pre) (mid ++ [⟨c, t⟩]))
    (hc : c ≠ .gap ∧ c ≠ .mapped) (hmapped : ∀ b ∈ mid', b.kind ≠ .mapped)
    (hclients : ∀ q u, (∃ k, Placed (lastKind .gap pre) (total pre) mid' k q ⟨.client, u⟩) ↔
      c = .client ∧ q = total pre + total mid ∧ u = t) (q u : Nat) :
    Live a (pre ++ (mid' ++ post)) q u ↔ Live a (pre ++ ((mid ++ [⟨c, t⟩]) ++ post)) q u ∧ q ≠ p := by
  obtain ⟨k₀, hp⟩ := (j.clients p n).mpr ⟨rfl, rfl⟩
  have hpbounds := hp.bounds
  have hpafter : After (pre ++ ((mid ++ [⟨c, t⟩]) ++ post)) k₀ p ⟨.client, n⟩ :=
    after_around.mpr (Or.inr (placed_append.mpr (Or.inl hp)))
  have hn := ((h.tagged hpafter).size (by simp)).1
  have hlast : After (pre ++ ((mid ++ [⟨c, t⟩]) ++ post)) .client (total pre + total mid) ⟨c, t⟩ := j.next_after
  have ht : 0 < t := ((h.tagged hlast).size hc.1).1
  have hsum : total (mid ++ [⟨c, t⟩]) = total mid + t := by simp
  dsimp only at hpbounds hn
  have haround : ∀ k b, Around .gap 0 pre mid' post k q b ↔ Around .gap 0 pre (mid ++ [⟨c, t⟩]) post k q b :=
    fun k b => around_congr htotal hkind
  have hinside : ∀ b, (∃ k, Placed (lastKind .gap pre) (total pre) (mid ++ [⟨c, t⟩]) k q b) ↔
      (∃ k, Placed (lastKind .gap pre) (total pre) mid k q b) ∨ (q = total pre + total mid ∧ b = ⟨c, t⟩) := by
    intro b
    simp only [placed_append, exists_or, exists_placed_cons, exists_placed_nil, or_false]
  have hclient : At (pre ++ (mid' ++ post)) q ⟨.client, u⟩ ↔
      At (pre ++ ((mid ++ [⟨c, t⟩]) ++ post)) q ⟨.client, u⟩ ∧ q ≠ p := by
    have hiff := h.around_iff (q := q) (b := ⟨.client, u⟩) (by simp)
    rw [at_around, hclients]
    simp only [haround]
    rw [hiff]
    constructor
    · rintro (⟨hat, hq⟩ | ⟨rfl, rfl, rfl⟩)
      · exact ⟨hat, by omega⟩
      · exact ⟨⟨_, hlast⟩, by omega⟩
    · rintro ⟨hat, hne⟩
      obtain hout | hin := at_around.mp hat
      · exact Or.inl (hiff.mp hout)
      · obtain hin | ⟨hq, heq⟩ := (hinside _).mp hin
        · exact absurd ((j.clients q u).mp hin).1 hne
        · cases heq
          exact Or.inr ⟨rfl, hq, rfl⟩
  have hmap : At (pre ++ (mid' ++ post)) q ⟨.mapped, u + a.word⟩ ↔
      At (pre ++ ((mid ++ [⟨c, t⟩]) ++ post)) q ⟨.mapped, u + a.word⟩ := by
    have hnone : ¬ ∃ k, Placed (lastKind .gap pre) (total pre) mid' k q ⟨.mapped, u + a.word⟩ :=
      fun hk => hk.elim fun _ hk => hmapped _ hk.mem rfl
    have hnone' : ¬ ∃ k, Placed (lastKind .gap pre) (total pre) (mid ++ [⟨c, t⟩]) k q ⟨.mapped, u + a.word⟩ := by
      rw [hinside]
      rintro (⟨k, hk⟩ | ⟨-, heq⟩)
      · obtain hkind | hkind := j.kinds _ hk.mem <;> cases hkind
      · cases heq
        exact hc.2 rfl
    rw [at_around, at_around, or_iff_left hnone, or_iff_left hnone']
    exact exists_congr fun k => haround k _
  rw [Live, Live, hclient, hmap, or_and_right]
  refine or_congr_right ⟨fun hat => ⟨hat, ?_⟩, And.left⟩
  rintro rfl
  have heq := h.unique hat ⟨k₀, hpafter⟩ (by simp) (by simp)
  cases heq

/-- Which chunks are free once they have been replaced. -/
theorem Joined.free (j : Joined a pre mid p n) (h : Row a M (pre ++ ((mid ++ [⟨c, t⟩]) ++ post)))
    (htotal : total mid' = total (mid ++ [⟨c, t⟩]))
    (hkind : lastKind (lastKind .gap pre) mid' = lastKind (lastKind .gap pre) (mid ++ [⟨c, t⟩]))
    (hc : c ≠ .gap) (q u : Nat) :
    At (pre ++ (mid' ++ post)) q ⟨.free, u⟩ ↔ (At (pre ++ ((mid ++ [⟨c, t⟩]) ++ post)) q ⟨.free, u⟩ ∧ q ≠ total pre ∧
      ¬ (c = .free ∧ q = total pre + total mid)) ∨
      ∃ k, Placed (lastKind .gap pre) (total pre) mid' k q ⟨.free, u⟩ := by
  have ht : 0 < t := ((h.tagged j.next_after).size hc).1
  have hsum : total (mid ++ [⟨c, t⟩]) = total mid + t := by simp
  have haround : ∀ k b, Around .gap 0 pre mid' post k q b ↔ Around .gap 0 pre (mid ++ [⟨c, t⟩]) post k q b :=
    fun k b => around_congr htotal hkind
  have hiff := h.around_iff (q := q) (b := ⟨.free, u⟩) nofun
  rw [at_around]
  simp only [haround]
  rw [hiff]
  refine or_congr_left ⟨fun ⟨hat, hq⟩ => ⟨hat, by omega, by omega⟩, fun ⟨hat, hne, hnot⟩ => ?_⟩
  obtain hout | ⟨k, hin⟩ := at_around.mp hat
  · exact hiff.mp hout
  · obtain hin | ⟨-, hq, heq⟩ | hnil := placed_append.mp hin
    · exact absurd (j.frees q u ⟨k, hin⟩) hne
    · cases heq
      exact absurd ⟨rfl, hq⟩ hnot
    · exact hnil.elim

/-- A state whose free chunks are those of `F`, once the chunk at `p` has been joined to others. -/
structure Joins (a : Arch) (s : State) (pre mid post : List (Block Kind)) (p : Nat) (F : Nat → Nat → Prop) (s' : State)
    (mid' : List (Block Kind)) : Prop where
  layout : Layout a s' (pre ++ (mid' ++ post))
  moves : Moves a (pre ++ (mid ++ post)) (pre ++ (mid' ++ post)) s.mem s'.mem
  around : SameAround a pre mid s.mem s'.mem
  live : ∀ q n, Live a (pre ++ (mid' ++ post)) q n ↔ Live a (pre ++ (mid ++ post)) q n ∧ q ≠ p
  free : ∀ q t, FreeIn (pre ++ (mid' ++ post)) q t ↔ F q t
  size : total mid' = total mid

theorem Joins.frees (h : Joins a s pre mid post p F s' mid') (hinv : Inv a m' (pre ++ (mid' ++ post)))
    (hidle : Idle a (pre ++ (mid' ++ post)) s' m') :
    Frees a s (pre ++ (mid ++ post)) p m' (pre ++ (mid' ++ post)) := by
  refine ⟨hinv, h.moves.trans (h.layout.idle hidle).2 fun _ _ _ hnew => hnew, h.live, ?_⟩
  rw [total_append, total_append, total_append, total_append, h.size]

theorem Joins.stored (h : Joins a s pre mid post p F s' mid') (hs : Stored a s' F) :
    Frees a s (pre ++ (mid ++ post)) p s' (pre ++ (mid' ++ post)) :=
  h.frees ⟨h.layout, hs.congr h.free⟩ .refl

section Joined

variable (h : Layout a s (pre ++ ((mid ++ [⟨c, t⟩]) ++ post))) (j : Joined a pre mid p n)

include h j

theorem Joined.sum_lt : total mid + t + 8 ≤ 2 ^ a.bits := by
  have hbound := h.laid.bound
  have hplace := mod_eight j.fits.place.2
  have hpos := j.fits.place.1
  simp only [total_append, total_cons, total_nil] at hbound
  omega

/-- The sizes of the joined chunks and of the block behind them make up a chunk. -/
theorem Joined.sum_fits (hc : c ≠ .gap) {c' : Kind} : Fits a c' (total pre) (total mid + t) := by
  have hsize : 0 < t ∧ t % mallocAlignment a = 0 := (h.laid.tagged j.next_after).size hc
  have hmin := j.fits.min nofun
  exact ⟨j.fits.place, ⟨by omega, add_aligned j.fits.size.2 hsize.2⟩, fun _ => by omega⟩

/-- The bins keep their links, since no bin has the chunks that are joined. -/
theorem Joined.binned (hc : c ≠ .gap) {bins : Bins} (hstocked : Stocked bins s.dv s.dvsize F)
    (hF : ∀ q u, F q u → FreeIn (pre ++ ((mid ++ [⟨c, t⟩]) ++ post)) q u) (hbinned : Binned a s bins)
    (hmem : SameAround a pre (mid ++ [⟨c, t⟩]) s.mem s'.mem) (hgm : s'.gm = s.gm) (hsmall : s'.smallmap = s.smallmap)
    (htree : s'.treemap = s.treemap) (hfirst : ∀ u, F (total pre) u → total pre = s.dv)
    (hnext : c = .free → ∀ u, F (total pre + total mid) u → total pre + total mid = s.dv) : Binned a s' bins := by
  refine h.binned_around (j.forall_next (P := (· ≠ .gap)) nofun nofun hc) (by simp) hstocked hF
    (fun k q u hplaced hq => ?_) hbinned hmem hgm hsmall htree
  obtain hplaced | ⟨-, rfl, heq⟩ | hnil := placed_append.mp hplaced
  · obtain rfl := j.frees q u ⟨k, hplaced⟩
    exact hfirst u hq
  · exact hnext (congrArg Block.kind heq).symm u hq
  · exact hnil.elim

/-- A chunk in use follows: it learns that the one before it is free. -/
theorem Layout.joinUsed (hc : c.Used)
    (hmem : s'.mem = (s.setFreeWithPinuse a (total pre) (total mid) (total pre + total mid)).mem)
    (hsame : SameTop s s') :
    Joins a s pre (mid ++ [⟨c, t⟩]) post p
      (fun q u => (FreeIn (pre ++ ((mid ++ [⟨c, t⟩]) ++ post)) q u ∧ q ≠ total pre) ∨ (q = total pre ∧ u = total mid))
      s' [⟨.free, total mid⟩, ⟨c, t⟩] := by
  obtain ⟨-, -, -, hgap, htop, hfree⟩ := hc.facts
  have hmapped := hc.ne_mapped
  obtain ⟨hmoves, haround⟩ := Row.release (s := s) h.laid hc j.last j.ne_record j.opens rfl j.fits
  rw [← hmem] at hmoves haround
  have htotal : total [(⟨.free, total mid⟩ : Block Kind), ⟨c, t⟩] = total (mid ++ [⟨c, t⟩]) := by simp
  have hkind : lastKind (lastKind .gap pre) [(⟨.free, total mid⟩ : Block Kind), ⟨c, t⟩] =
      lastKind (lastKind .gap pre) (mid ++ [⟨c, t⟩]) := by simp
  have hmid := j.forall_next (c := c) (t := t) (P := fun k => k ≠ .gap ∧ k ≠ .top) ⟨nofun, nofun⟩ ⟨nofun, nofun⟩
    ⟨hgap, htop⟩
  refine ⟨h.replace hmoves haround hsame htotal hkind (by simp) hmid (by simp [htop]) rfl
    ⟨nofun, nofun⟩, hmoves, haround, fun q u => ?_, fun q u => ?_, htotal⟩
  · refine j.live h.laid htotal hkind ⟨hgap, hmapped⟩ (by simp [hmapped]) (fun q u => ?_) q u
    simp only [exists_placed_cons, exists_placed_nil, Block.mk.injEq, reduceCtorEq, false_and, and_false, false_or,
      or_false]
    grind
  · rw [FreeIn, j.free h.laid htotal hkind hgap]
    simp only [exists_placed_cons, exists_placed_nil, Block.mk.injEq, true_and, or_false, hfree, hfree.symm, false_and,
      and_false, not_false_eq_true, and_true]

/-- A free chunk follows, and all become one. -/
theorem Layout.joinFree (hc : c = .free)
    (hmem : s'.mem = (s.setSizeAndPinuseOfFreeChunk a (total pre) (total mid + t)).mem) (hsame : SameTop s s') :
    Joins a s pre (mid ++ [⟨c, t⟩]) post p
      (fun q u => (FreeIn (pre ++ ((mid ++ [⟨c, t⟩]) ++ post)) q u ∧ q ≠ total pre ∧ q ≠ total pre + total mid) ∨
        (q = total pre ∧ u = total mid + t))
      s' [⟨.free, total mid + t⟩] := by
  subst hc
  have hfits : Fits a .free (total pre) (total mid + t) := j.sum_fits h (by simp)
  have hlt := j.sum_lt h
  have hn8 := mod_eight hfits.size.2
  have hmin := hfits.min (by simp)
  have hword := word_cases a
  rw [minChunkSize] at hmin
  have htotal : total [(⟨.free, total mid + t⟩ : Block Kind)] = total (mid ++ [⟨.free, t⟩]) := by simp
  have hkind : lastKind (lastKind .gap pre) [(⟨.free, total mid + t⟩ : Block Kind)] =
      lastKind (lastKind .gap pre) (mid ++ [⟨.free, t⟩]) := by simp
  rw [State.setSizeAndPinuseOfFreeChunk, or_pinuse hn8] at hmem
  have haround : SameAround a pre (mid ++ [⟨.free, t⟩]) s.mem s'.mem := fun x hx => by
    rw [← htotal, total_cons, total_nil] at hx
    dsimp only at hx
    rw [hmem]
    exact (store_outside (by omega)).trans (store_outside (by omega))
  have hrecord : ∀ b ∈ mid ++ [⟨Kind.free, t⟩], b.kind ≠ .record :=
    j.forall_next (P := (· ≠ .record)) (by simp) (by simp) (by simp)
  have hmoves : Moves a (pre ++ ((mid ++ [⟨.free, t⟩]) ++ post)) (pre ++ ([⟨.free, total mid + t⟩] ++ post)) s.mem
      s'.mem := by
    refine h.laid.merge (Or.inl rfl) (by simp) hrecord j.opens (by simp) hfits ?_ (fun _ => ?_) haround
    · rw [hmem]
      exact (load_store_outside (by omega)).trans (load_word (by omega))
    · rw [hmem]
      exact load_word (by omega)
  have hmid := j.forall_next (c := .free) (t := t) (P := fun k => k ≠ .gap ∧ k ≠ .top) (by simp) (by simp) (by simp)
  refine ⟨h.replace hmoves haround hsame htotal hkind (by simp) hmid (by simp) rfl
    ⟨by simp, by simp⟩, hmoves, haround, fun q u => ?_, fun q u => ?_, htotal⟩
  · refine j.live h.laid htotal hkind ⟨by simp, by simp⟩ (by simp) (fun q u => ?_) q u
    simp only [exists_placed_cons, exists_placed_nil, Block.mk.injEq, reduceCtorEq, false_and, and_false, or_false]
  · rw [FreeIn, j.free h.laid htotal hkind (by simp)]
    simp only [exists_placed_cons, exists_placed_nil, Block.mk.injEq, true_and, or_false, ne_eq]

/-- The top chunk follows, and takes them in. -/
theorem Layout.joinTop (hc : c = .top) (hmem : s'.mem = (s.setHead a (total pre) (total mid + t ||| pinuseBit)).mem)
    (htop : s'.top = total pre) (htopsize : s'.topsize = total mid + t) (hleast : s'.leastAddr = s.leastAddr)
    (hgm : s'.gm = s.gm) :
    Joins a s pre (mid ++ [⟨c, t⟩]) post p
      (fun q u => FreeIn (pre ++ ((mid ++ [⟨c, t⟩]) ++ post)) q u ∧ q ≠ total pre) s' [⟨.top, total mid + t⟩] := by
  subst hc
  have hfits : Fits a .top (total pre) (total mid + t) := j.sum_fits h nofun
  have hlt := j.sum_lt h
  have hn8 := mod_eight hfits.size.2
  have hword : 2 * a.word ≤ t := (h.laid.tagged j.next_after).word_le nofun
  have htotal : total [(⟨.top, total mid + t⟩ : Block Kind)] = total (mid ++ [⟨.top, t⟩]) := by simp
  have hkind : lastKind (lastKind .gap pre) [(⟨.top, total mid + t⟩ : Block Kind)] =
      lastKind (lastKind .gap pre) (mid ++ [⟨.top, t⟩]) := by simp
  rw [or_pinuse hn8] at hmem
  have haround : SameAround a pre (mid ++ [⟨.top, t⟩]) s.mem s'.mem := fun x hx => by
    rw [← htotal, total_cons, total_nil] at hx
    dsimp only at hx
    rw [hmem]
    exact store_outside (by omega)
  have hrecord : ∀ b ∈ mid ++ [⟨Kind.top, t⟩], b.kind ≠ .record :=
    j.forall_next (P := (· ≠ .record)) nofun nofun nofun
  have hmoves : Moves a (pre ++ ((mid ++ [⟨.top, t⟩]) ++ post)) (pre ++ ([⟨.top, total mid + t⟩] ++ post)) s.mem
      s'.mem := by
    refine h.laid.merge (Or.inr rfl) (by simp) hrecord j.opens (by simp) hfits ?_ nofun haround
    rw [hmem]
    exact load_word (by omega)
  have hlayout : Layout a s' (pre ++ (([] ++ [⟨.top, total mid + t⟩]) ++ post)) :=
    h.retop hmoves haround (by simp) j.ne_gap (by simp) (by simpa using htop) htopsize hleast hgm
  refine ⟨hlayout, hmoves, haround, fun q u => ?_, fun q u => ?_, htotal⟩
  · refine j.live h.laid htotal hkind ⟨nofun, nofun⟩ (by simp) (fun q u => ?_) q u
    simp only [exists_placed_cons, exists_placed_nil, Block.mk.injEq, reduceCtorEq, false_and, and_false, or_false]
  · rw [FreeIn, j.free h.laid htotal hkind nofun]
    simp only [exists_placed_cons, exists_placed_nil, Block.mk.injEq, reduceCtorEq, false_and, and_false, or_false,
      not_false_eq_true, and_true, ne_eq]

end Joined

/-! ### Consolidation -/

theorem flags_free (hn : n % 8 = 0) : pinuse (n + 1) = true ∧ cinuse (n + 1) = false :=
  ⟨decide_eq_true (by omega), decide_eq_false (by omega)⟩

theorem flags_used (hn : n % 8 = 0) : pinuse (n + 3) = true ∧ cinuse (n + 3) = true ∧ isInuse (n + 3) = true :=
  ⟨decide_eq_true (by omega), decide_eq_true (by omega), decide_eq_true (by rw [pinuseBit]; omega)⟩

theorem flags_behindFree (hn : n % 8 = 0) :
    pinuse (n + 2) = false ∧ isInuse (n + 2) = true ∧ isMmapped (n + 2) = false :=
  ⟨decide_eq_false (by omega), decide_eq_true (by rw [pinuseBit]; omega), decide_eq_false (by omega)⟩

/-- Where the chunk at `P` is before the joined one goes to a bin: in no bin, or the designated victim. -/
structure Pending (a : Arch) (s : State) (F : Nat → Nat → Prop) (P : Nat) (c : Kind) : Prop where
  taken : s.dv ≠ P → Stored a s fun q t => F q t ∧ q ≠ P
  victim : s.dv = P → Stored a s F ∧ ¬ c.Used

theorem kind_of_client_before (h : Kind.client.before c = true) : c.Used ∨ c = .top ∨ c = .free := by
  cases c with
  | client => exact Or.inl (Or.inl rfl)
  | record => exact Or.inl (Or.inr rfl)
  | top => exact Or.inr (Or.inl rfl)
  | free => exact Or.inr (Or.inr rfl)
  | gap => cases h
  | mapped => cases h

section Forward

variable (h : Layout a s (pre ++ ((mid ++ [⟨c, t⟩]) ++ post))) (j : Joined a pre mid p n)
  (hs : Pending a s (FreeIn (pre ++ ((mid ++ [⟨c, t⟩]) ++ post))) (total pre) c)

include h j

theorem Layout.next_head (hgap : c ≠ .gap) :
    s.head a (total pre + total mid) = t + Kind.client.flags c ∧ t % 8 = 0 := by
  have htag := h.laid.tagged j.next_after
  exact ⟨htag.head hgap, htag.multiple hgap⟩

/-- The bits that tell `dlfree` whether the block behind is in use, behind a chunk in use. -/
theorem Layout.next_used : (cinuse (s.head a (total pre + total mid)) = true ∧
    pinuse (s.head a (total pre + total mid)) = true) ↔ c.Used := by
  have hafter : After (pre ++ ((mid ++ [⟨c, t⟩]) ++ post)) .client (total pre + total mid) ⟨c, t⟩ := j.next_after
  have hcases := kind_of_client_before (h.laid.tagged hafter).before
  have hgap : c ≠ .gap := by
    obtain (rfl | rfl) | rfl | rfl := hcases <;> nofun
  obtain ⟨hhead, ht8⟩ := h.next_head j hgap
  rw [hhead]
  obtain hc | hc := hcases
  · obtain ⟨hpinuse, hcinuse, -⟩ := flags_used ht8
    rw [hc.facts.2.1]
    exact iff_of_true ⟨hcinuse, hpinuse⟩ hc
  · have hone : Kind.client.flags c = 1 := by
      obtain rfl | rfl := hc <;> rfl
    obtain ⟨-, hcinuse⟩ := flags_free ht8
    rw [hone]
    refine iff_of_false (fun hboth => ?_) ?_
    · rw [hcinuse] at hboth
      cases hboth.1
    · obtain rfl | rfl := hc <;> rintro (hc | hc) <;> cases hc

include hs

/-- A chunk in use is next. -/
theorem Layout.freeForward_used (hc : c.Used) :
    ∃ m' row', Malloc.freeForward a s (total pre) (total mid) (total pre + total mid) = some m' ∧
      Frees a s (pre ++ ((mid ++ [⟨c, t⟩]) ++ post)) p m' row' := by
  obtain ⟨-, hflags, -, hgap, -, hfree⟩ := hc.facts
  obtain ⟨hhead, ht8⟩ := h.next_head j hgap
  have hlt : total pre < total pre + total mid := Nat.lt_add_of_pos_right j.fits.size.1
  obtain ⟨hpinuse, hcinuse, -⟩ := flags_used ht8
  rw [Malloc.freeForward, hhead, hflags, if_pos ⟨hlt, hpinuse⟩, if_neg (not_not.mpr hcinuse)]
  have hdv : s.dv ≠ total pre := fun hdv => (hs.victim hdv).2 hc
  have hjoin := h.joinUsed j hc rfl ⟨rfl, rfl, rfl, rfl⟩
  obtain ⟨bins, hstocked, hbinned⟩ := hs.taken hdv
  have hbinned' := j.binned h hgap hstocked (fun _ _ => And.left) hbinned hjoin.around rfl rfl rfl
    (fun u hu => absurd rfl hu.2) fun hc => absurd hc hfree
  obtain ⟨m', heq, hinv, hidle⟩ := hjoin.layout.binFreed ⟨bins, hstocked, hbinned'⟩ hjoin.free fun u hu => hu.2 rfl
  exact ⟨m', _, heq, hjoin.frees hinv hidle⟩

/-- The top chunk is next. -/
theorem Layout.freeForward_top (hc : c = .top) :
    ∃ m' row', Malloc.freeForward a s (total pre) (total mid) (total pre + total mid) = some m' ∧
      Frees a s (pre ++ ((mid ++ [⟨c, t⟩]) ++ post)) p m' row' := by
  subst hc
  obtain ⟨hhead, ht8⟩ := h.next_head j nofun
  have hlt : total pre < total pre + total mid := Nat.lt_add_of_pos_right j.fits.size.1
  obtain ⟨hpinuse, hcinuse⟩ := flags_free ht8
  obtain ⟨-, hnext, rfl⟩ := (h.top _ _).mp ⟨_, j.next_after⟩
  have hflags : Kind.client.flags .top = 1 := rfl
  rw [Malloc.freeForward, hhead, hflags, if_pos ⟨hlt, hpinuse⟩, if_pos (by simp [hcinuse]), if_pos hnext]
  have hkeep : ∀ (s : State) p v, (s.setHead a p v).dv = s.dv := fun _ _ _ => rfl
  dsimp only
  rw [Nat.add_comm s.topsize, hkeep]
  dsimp only
  have htrim : ∀ s' : State, Frees a s (pre ++ ((mid ++ [⟨.top, s.topsize⟩]) ++ post)) p s'
      (pre ++ ([⟨.top, total mid + s.topsize⟩] ++ post)) →
      ∃ m' row', (if s'.trimCheck < total mid + s.topsize then Malloc.sysTrim a s' 0 else some s') = some m' ∧
        Frees a s (pre ++ ((mid ++ [⟨.top, s.topsize⟩]) ++ post)) p m' row' := by
    intro s' hfrees
    split
    · obtain ⟨m', heq, hinv, hidle⟩ := hfrees.inv.sysTrim 0
      exact ⟨m', _, heq, hinv, hfrees.moves.trans (hfrees.inv.idle hidle).2 fun _ _ _ hnew => hnew, hfrees.live,
        hfrees.size⟩
    · exact ⟨_, _, rfl, hfrees⟩
  have hjoin : ∀ s' : State, s'.mem = (s.setHead a (total pre) (total mid + s.topsize ||| pinuseBit)).mem →
      s'.top = total pre → s'.topsize = total mid + s.topsize → s'.leastAddr = s.leastAddr → s'.gm = s.gm →
      Joins a s pre _ post p _ s' _ := fun s' => h.joinTop j rfl
  by_cases hdv : s.dv = total pre
  · rw [if_pos (show total pre = s.dv from hdv.symm)]
    obtain ⟨bins, hstocked, hbinned⟩ := (hs.victim hdv).1
    have hj := hjoin { (({ s with topsize := total mid + s.topsize, top := total pre } : State).setHead a (total pre)
      (total mid + s.topsize ||| pinuseBit)) with dv := 0, dvsize := 0 } rfl rfl rfl rfl rfl
    refine htrim _ (hj.stored ⟨bins, hdv ▸ hstocked.takeDv, ?_⟩)
    exact j.binned h nofun hstocked (fun _ _ => id) hbinned hj.around rfl rfl rfl (fun _ _ => hdv.symm) nofun
  · rw [if_neg (show ¬ total pre = s.dv from fun heq => hdv heq.symm)]
    obtain ⟨bins, hstocked, hbinned⟩ := hs.taken hdv
    have hj := hjoin (({ s with topsize := total mid + s.topsize, top := total pre } : State).setHead a (total pre)
      (total mid + s.topsize ||| pinuseBit)) rfl rfl rfl rfl rfl
    refine htrim _ (hj.stored ⟨bins, hstocked, ?_⟩)
    exact j.binned h nofun hstocked (fun _ _ => And.left) hbinned hj.around rfl rfl rfl
      (fun _ hu => absurd rfl hu.2) nofun

/-- A free chunk is next. -/
theorem Layout.freeForward_free (hc : c = .free) :
    ∃ m' row', Malloc.freeForward a s (total pre) (total mid) (total pre + total mid) = some m' ∧
      Frees a s (pre ++ ((mid ++ [⟨c, t⟩]) ++ post)) p m' row' := by
  subst hc
  obtain ⟨hhead, ht8⟩ := h.next_head j nofun
  have hlt : total pre < total pre + total mid := Nat.lt_add_of_pos_right j.fits.size.1
  have hpos := j.fits.place.1
  have hsize := j.fits.size.1
  obtain ⟨hpinuse, hcinuse⟩ := flags_free ht8
  have hflags : Kind.client.flags .free = 1 := rfl
  have hF : FreeIn (pre ++ ((mid ++ [⟨.free, t⟩]) ++ post)) (total pre + total mid) t := ⟨_, j.next_after⟩
  have htop : total pre + total mid ≠ s.top := by
    intro heq
    have hinit : s.top ≠ 0 := by omega
    have htopat := (h.top s.top s.topsize).mpr ⟨hinit, rfl, rfl⟩
    rw [← heq] at htopat
    cases h.laid.unique hF htopat nofun nofun
  have hchunk : chunksize (t + 1) = t := chunksize_add ht8 (by decide)
  rw [Malloc.freeForward, hhead, hflags, if_pos ⟨hlt, hpinuse⟩, if_pos (by simp [hcinuse]), if_neg htop, hchunk]
  have hfits : Fits a .free (total pre) (total mid + t) := j.sum_fits h nofun
  have hne' := hfits.size.1.ne'
  have hmod := mod_eight hfits.size.2
  by_cases hnext : total pre + total mid = s.dv
  · -- It is the designated victim.
    have hdv : s.dv ≠ total pre := by omega
    obtain ⟨bins, hstocked, hbinned⟩ := hs.taken hdv
    have hdvsize : s.dvsize = t := (hstocked.dv_eq (hnext ▸ ⟨hF, by omega⟩)).symm
    rw [if_pos hnext, hdvsize]
    dsimp only
    rw [Nat.add_comm t]
    have hj : Joins a s pre _ post p _ (({ s with dvsize := total mid + t, dv := total pre } :
      State).setSizeAndPinuseOfFreeChunk a (total pre) (total mid + t)) _ :=
      h.joinFree j rfl rfl ⟨rfl, rfl, rfl, rfl⟩
    have hbinned' := j.binned h nofun hstocked (fun _ _ => And.left) hbinned hj.around rfl rfl rfl
      (fun u hu => absurd rfl hu.2) fun _ _ _ => hnext
    have hstock := hstocked.takeDv.setDv (fun u hu => hu.1.2 rfl) hpos.ne' hne' hmod
    refine ⟨_, _, rfl, hj.stored ⟨bins, hstock.congr fun q u => ?_, hbinned'⟩⟩
    rw [and_assoc, hnext]
  · -- It leaves its bin.
    rw [if_neg hnext]
    dsimp only
    by_cases hdv : s.dv = total pre
    · -- The designated victim takes it in.
      obtain ⟨s₁, heq, hstep, bins, hstocked, hbinned⟩ := h.unlinked (hs.victim hdv).1 (fun _ _ => id) hF hnext
      obtain ⟨h₁, hmoves⟩ := h.idle (h.idle_of_step hstep)
      have hdv₁ : s₁.dv = total pre := by
        rw [hstep.rest]
        exact hdv
      have hj : Joins a s₁ pre _ post p _ { s₁.setSizeAndPinuseOfFreeChunk a (total pre) (total mid + t) with
        dvsize := total mid + t } _ := h₁.joinFree j rfl rfl ⟨rfl, rfl, rfl, rfl⟩
      have hbinned' := j.binned h₁ nofun hstocked (fun _ _ => And.left) hbinned hj.around rfl rfl rfl
        (fun _ _ => hdv₁.symm) fun _ u hu => absurd rfl hu.2
      have hstock := hstocked.takeDv.setDv (fun u hu => hu.2 rfl) (hdv₁ ▸ hpos.ne') hne' hmod
      rw [heq]
      refine ⟨_, _, if_pos (show total pre = s₁.dv from hdv₁.symm), (hj.stored
        ⟨bins, hstock.congr fun q u => ?_, hbinned'⟩).of_idle hmoves⟩
      rw [hdv₁, and_assoc, and_comm (a := q ≠ total pre)]
    · obtain ⟨s₁, heq, hstep, bins, hstocked, hbinned⟩ :=
        h.unlinked (hs.taken hdv) (fun _ _ => And.left) ⟨hF, by omega⟩ hnext
      obtain ⟨h₁, hmoves⟩ := h.idle (h.idle_of_step hstep)
      have hdv₁ : s₁.dv ≠ total pre := by
        rw [hstep.rest]
        exact hdv
      have hj : Joins a s₁ pre _ post p _ (s₁.setSizeAndPinuseOfFreeChunk a (total pre) (total mid + t)) _ :=
        h₁.joinFree j rfl rfl ⟨rfl, rfl, rfl, rfl⟩
      have hbinned' := j.binned h₁ nofun hstocked (fun _ _ hu => hu.1.1) hbinned hj.around rfl rfl rfl
        (fun _ hu => absurd rfl hu.1.2) fun _ u hu => absurd rfl hu.2
      obtain ⟨m', heq', hinv, hidle⟩ := hj.layout.binFreed ⟨bins, hstocked, hbinned'⟩
        (fun q u => (hj.free q u).trans (by rw [and_assoc])) fun u hu => hu.1.2 rfl
      rw [heq]
      exact ⟨m', _, (if_neg (show ¬ total pre = s₁.dv from fun heq => hdv₁ heq.symm)).trans heq',
        (hj.frees hinv hidle).of_idle hmoves⟩

theorem Layout.freeForward :
    ∃ m' row', Malloc.freeForward a s (total pre) (total mid) (total pre + total mid) = some m' ∧
      Frees a s (pre ++ ((mid ++ [⟨c, t⟩]) ++ post)) p m' row' := by
  have hafter : After (pre ++ ((mid ++ [⟨c, t⟩]) ++ post)) .client (total pre + total mid) ⟨c, t⟩ := j.next_after
  obtain hc | hc | hc := kind_of_client_before (h.laid.tagged hafter).before
  · exact h.freeForward_used j hs hc
  · exact h.freeForward_top j hs hc
  · exact h.freeForward_free j hs hc

end Forward

/-! ### `dlfree` -/

theorem joined_one (h : Row a M (pre ++ ([⟨.client, n⟩, ⟨c, t⟩] ++ post))) (hopen : (lastKind .gap pre).Open) :
    Joined a pre [⟨.client, n⟩] (total pre) n := by
  have hk : After (pre ++ ([⟨.client, n⟩, ⟨c, t⟩] ++ post)) (lastKind .gap pre) (total pre) ⟨.client, n⟩ :=
    after_around.mpr (Or.inr (Or.inl ⟨rfl, rfl, rfl⟩))
  have hfits := (h.tagged hk).fits nofun
  refine ⟨by simp, rfl, fun q t => ?_, fun q t => ?_, hopen, hfits.place, hfits.size, fun _ => hfits.min nofun⟩
  · simp
  · simp

theorem joined_two {f : Nat} (h : Row a M (pre ++ (([⟨.free, f⟩, ⟨.client, n⟩] ++ [⟨c, t⟩]) ++ post))) :
    Joined a pre [⟨.free, f⟩, ⟨.client, n⟩] (total pre + f) n := by
  have hf : After (pre ++ (([⟨.free, f⟩, ⟨.client, n⟩] ++ [⟨c, t⟩]) ++ post)) (lastKind .gap pre) (total pre)
      ⟨.free, f⟩ := after_around.mpr (Or.inr (Or.inl ⟨rfl, rfl, rfl⟩))
  have hn : After (pre ++ (([⟨.free, f⟩, ⟨.client, n⟩] ++ [⟨c, t⟩]) ++ post)) .free (total pre + f) ⟨.client, n⟩ :=
    after_around.mpr (Or.inr (Or.inr (Or.inl ⟨rfl, rfl, rfl⟩)))
  have hfits := (h.tagged hf).fits nofun
  have hsize : 0 < n ∧ n % mallocAlignment a = 0 := (h.tagged hn).size nofun
  have hsum : total [(⟨.free, f⟩ : Block Kind), ⟨.client, n⟩] = f + n := by simp
  refine ⟨by simp, rfl, fun q t => ?_, fun q t => ?_, open_of_before (h.tagged hf).before (Or.inl rfl), hfits.place, ?_,
    fun _ => ?_⟩
  · simp
  · simp +contextual
  · rw [hsum]
    exact ⟨by omega, add_aligned hfits.size.2 hsize.2⟩
  · have hmin := hfits.min nofun
    omega

/-- The chunk before a client's is free, or there is none that is. -/
theorem Layout.clientSplit (h : Layout a m row) (hk : After row k p ⟨.client, n⟩) :
    ∃ pre mid c t post, row = pre ++ ((mid ++ [⟨c, t⟩]) ++ post) ∧ Joined a pre mid p n ∧
      p + n = total pre + total mid ∧
      ((k ≠ .free ∧ p = total pre ∧ mid = [⟨.client, n⟩]) ∨
        ∃ f, k = .free ∧ p = total pre + f ∧ mid = [⟨.free, f⟩, ⟨.client, n⟩]) := by
  obtain ⟨pre, ⟨c, t⟩, post, rfl, rfl, rfl, -, -⟩ := h.laid.next hk (Or.inl rfl)
  have hbefore := (h.laid.tagged hk).before
  by_cases hfree : lastKind .gap pre = .free
  · obtain rfl | ⟨pre, ⟨d, f⟩, rfl⟩ := pre.eq_nil_or_concat
    · cases hfree
    · rw [List.concat_eq_append, lastKind_append] at hfree
      obtain rfl : d = .free := hfree
      have hrow : pre.concat ⟨.free, f⟩ ++ ([⟨.client, n⟩, ⟨c, t⟩] ++ post) =
          pre ++ (([⟨.free, f⟩, ⟨.client, n⟩] ++ [⟨c, t⟩]) ++ post) := by
        simp
      have htotal : total (pre.concat (⟨.free, f⟩ : Block Kind)) = total pre + f := by simp
      have hlaid := h.laid
      rw [hrow] at hlaid
      refine ⟨pre, _, c, t, post, hrow, htotal ▸ joined_two hlaid, ?_, Or.inr ⟨f, ?_, htotal, rfl⟩⟩
      · rw [htotal]
        simp only [total_cons, total_nil]
        omega
      · rw [List.concat_eq_append, lastKind_append]
        rfl
  · have hopen : (lastKind .gap pre).Open := by
      revert hfree hbefore
      cases lastKind .gap pre with
      | gap => exact fun _ _ => Or.inl rfl
      | client => exact fun _ _ => Or.inr rfl
      | free => exact fun _ hne => absurd rfl hne
      | record => exact fun hcase => by cases hcase
      | top => exact fun hcase => by cases hcase
      | mapped => exact fun hcase => by cases hcase
    exact ⟨pre, _, c, t, post, rfl, joined_one h.laid hopen, by simp, Or.inl ⟨hfree, rfl, rfl⟩⟩

theorem mem2chunk_chunk2mem : mem2chunk a (chunk2mem a p) = p := Nat.add_sub_cancel _ _

theorem Inv.dlfree_client (h : Inv a m row) (hk : After row k p ⟨.client, n⟩) :
    ∃ m' row', dlfree a m (chunk2mem a p) = some m' ∧ Frees a m row p m' row' := by
  have htag := h.laid.tagged hk
  have hn8 : n % 8 = 0 := htag.multiple nofun
  have hok : m.okAddress p = true := decide_eq_true (h.least p _ ⟨k, hk⟩ nofun)
  have hhead : m.head a p = n + k.flags .client := htag.head nofun
  obtain ⟨pre, mid, c, t, post, rfl, j, hnext, hcase⟩ := h.clientSplit hk
  rw [Malloc.dlfree, if_neg chunk2mem_ne_zero, mem2chunk_chunk2mem]
  dsimp only
  obtain ⟨hfree, hp, rfl⟩ | ⟨f, rfl, hp, rfl⟩ := hcase
  · have hflags : k.flags .client = 3 := by
      rw [Kind.flags, if_neg hfree]
    obtain ⟨hpinuse, -, hinuse⟩ := flags_used hn8
    rw [hhead, hflags, if_pos ⟨hok, hinuse⟩, if_neg (by simp [hpinuse]), chunksize_add hn8 (by decide), hnext]
    have hnone : ∀ u, ¬ FreeIn (pre ++ (([⟨.client, n⟩] ++ [⟨c, t⟩]) ++ post)) p u := fun u hu => by
      cases h.laid.unique hu ⟨k, hk⟩ nofun nofun
    have hforward := h.freeForward j
      ⟨fun _ => h.stored.congr fun q u => and_iff_left_of_imp ?_, fun hdv => ?_⟩
    · subst hp
      simpa using hforward
    · rintro hu rfl
      exact hnone u (hp ▸ hu)
    · exfalso
      obtain ⟨bins, hstocked, -⟩ := h.stored
      by_cases hzero : m.dvsize = 0
      · have hpos := j.fits.place.1
        have hvacant := hstocked.vacant hzero
        omega
      · have hvictim := hstocked.victim hzero
        rw [hdv, ← hp] at hvictim
        exact hnone _ hvictim
  · -- The chunk before is free, and the two become one.
    have hflags : Kind.free.flags .client = 2 := rfl
    obtain ⟨hpinuse, hinuse, hmapped⟩ := flags_behindFree hn8
    have hfreeafter : After (pre ++ (([⟨.free, f⟩, ⟨.client, n⟩] ++ [⟨c, t⟩]) ++ post)) (lastKind .gap pre) (total pre)
        ⟨.free, f⟩ := after_around.mpr (Or.inr (Or.inl ⟨rfl, rfl, rfl⟩))
    have hF : FreeIn (pre ++ (([⟨.free, f⟩, ⟨.client, n⟩] ++ [⟨c, t⟩]) ++ post)) (total pre) f := ⟨_, hfreeafter⟩
    have hfoot : m.prevFoot a p = f := by
      rw [State.prevFoot, hp]
      exact (h.laid.tagged hfreeafter).foot rfl
    have hok' : m.okAddress (total pre) = true := decide_eq_true (h.least _ _ hF nofun)
    have hprev : p - f = total pre := by omega
    have hsum : n + f = total [(⟨.free, f⟩ : Block Kind), ⟨.client, n⟩] := by
      simp only [total_cons, total_nil]
      omega
    rw [hhead, hflags, if_pos ⟨hok, hinuse⟩, if_pos (by simp [hpinuse]), if_neg (by simp [hmapped]),
      chunksize_add hn8 (by decide), hnext, hfoot, hprev, if_pos hok', hsum]
    by_cases hdv : total pre = m.dv
    · -- The designated victim has no bin to leave, and stays when a chunk in use is next.
      have hused := h.next_used j
      rw [if_neg (not_not.mpr hdv)]
      by_cases hc : c.Used
      · rw [if_pos (hused.mpr hc)]
        obtain ⟨-, -, -, hgap, -, hfree⟩ := hc.facts
        have hpos := j.fits.place.1.ne'
        have hj : Joins a m pre _ post p _ (({ m with dvsize := total [(⟨.free, f⟩ : Block Kind), ⟨.client, n⟩] } :
          State).setFreeWithPinuse a (total pre) (total [(⟨.free, f⟩ : Block Kind), ⟨.client, n⟩])
          (total pre + total [(⟨.free, f⟩ : Block Kind), ⟨.client, n⟩])) _ :=
          h.joinUsed j hc rfl ⟨rfl, rfl, rfl, rfl⟩
        obtain ⟨bins, hstocked, hbinned⟩ := h.stored
        have hbinned' := j.binned h.toLayout hgap hstocked (fun _ _ => id) hbinned hj.around rfl rfl rfl
          (fun _ _ => hdv) fun hc => absurd hc hfree
        have hin := hstocked.takeDv.setDv (p := m.dv) (fun u hu => hu.2 rfl) (hdv ▸ hpos) j.fits.size.1.ne'
          (mod_eight j.fits.size.2)
        exact ⟨_, _, rfl, hj.stored ⟨bins, hin.congr fun q u => by rw [hdv], hbinned'⟩⟩
      · rw [if_neg fun hboth => hc (hused.mp hboth)]
        exact h.freeForward j ⟨fun hne => absurd hdv.symm hne, fun _ => ⟨h.stored, hc⟩⟩
    · rw [if_pos hdv]
      obtain ⟨s₁, heq, hstep, hstored⟩ := h.unlinked h.stored (fun _ _ => id) hF hdv
      obtain ⟨h₁, hmoves⟩ := h.idle (h.idle_of_step hstep)
      obtain ⟨m', row', heq', hfrees⟩ := h₁.freeForward j
        ⟨fun _ => hstored, fun hdv' => absurd (by rw [← hdv', hstep.rest]) hdv⟩
      rw [heq]
      exact ⟨m', row', heq', hfrees.of_idle hmoves⟩

/-- The chunk of an `mmap` of its own is not given back, since `munmap` fails. -/
theorem Inv.dlfree_mapped_eq (h : Inv a m row) (hk : After row k p ⟨.mapped, n⟩) : dlfree a m (chunk2mem a p) = some m := by
  have htag := h.laid.tagged hk
  have hn8 : n % 8 = 0 := htag.multiple (by simp)
  have hok : m.okAddress p = true := decide_eq_true (h.least p _ ⟨k, hk⟩ (by simp))
  have hhead : m.head a p = n + 0 := htag.head (by simp)
  have hinuse : isInuse (n + 0) = true := decide_eq_true (by rw [pinuseBit]; omega)
  have hpinuse : pinuse (n + 0) = false := decide_eq_false (by omega)
  have hmapped : isMmapped (n + 0) = true := decide_eq_true (by omega)
  rw [Malloc.dlfree, if_neg chunk2mem_ne_zero, mem2chunk_chunk2mem]
  dsimp only
  rw [hhead, if_pos ⟨hok, hinuse⟩, if_pos (by rw [hpinuse]; exact Bool.false_ne_true), if_pos hmapped]

theorem Row.gap_behind_mapped {M : Memory} (h : Row a M (pre ++ ([⟨.mapped, n⟩] ++ post))) :
    ∃ g post', post = ⟨.gap, g⟩ :: post' := by
  cases post with
  | nil =>
      have hlast := h.last
      rw [lastKind_append] at hlast
      cases hlast
  | cons b post =>
      obtain ⟨c, g⟩ := b
      have hbefore := ((laid_append.mp h.laid).2.2.1).before
      have hc : c = .gap := by
        cases c <;> first | rfl | cases hbefore
      exact ⟨g, post, by rw [hc]⟩

/-- No segment begins or ends with the chunk of an `mmap` of its own. -/
theorem Segments.unmap {seg : List Segment} {g top topsize : Nat}
    (h : Segments a (pre ++ ([⟨.mapped, n⟩, ⟨.gap, g⟩] ++ post)) seg top topsize) (hinit : top ≠ 0) :
    Segments a (pre ++ ([⟨.gap, n⟩, ⟨.gap, g⟩] ++ post)) seg top topsize := by
  have haround : ∀ k q b, Around .gap 0 pre [⟨.gap, n⟩, ⟨.gap, g⟩] post k q b ↔
      Around .gap 0 pre [⟨.mapped, n⟩, ⟨.gap, g⟩] post k q b := fun k q b => around_congr rfl rfl
  have htotal : total (pre ++ ([⟨Kind.gap, n⟩, ⟨.gap, g⟩] ++ post)) =
      total (pre ++ ([⟨.mapped, n⟩, ⟨.gap, g⟩] ++ post)) := by
    simp
  refine ⟨fun sp hsp => ?_, h.large, htotal ▸ h.below, h.ordered, h.current, fun _ => ?_⟩
  · obtain ⟨c, hc, hkind⟩ := h.opens sp hsp
    obtain hout | ⟨-, -, rfl⟩ | ⟨-, -, rfl⟩ | hnil := after_around.mp hc
    · exact ⟨c, after_around.mpr (Or.inl ((haround _ _ _).mpr hout)), hkind⟩
    · exact absurd rfl hkind.2
    · exact absurd rfl hkind.1
    · exact hnil.elim
  · obtain hout | ⟨-, -, heq⟩ | ⟨hkind, -⟩ | hnil := after_around.mp (h.foot hinit)
    · exact after_around.mpr (Or.inl ((haround _ _ _).mpr hout))
    · cases heq
    · cases hkind
    · exact hnil.elim

/-- `munmap` does not take a chunk that `mmap` has made, and its memory is lost. -/
theorem Inv.dlfree_mapped (h : Inv a m row) (hk : After row k p ⟨.mapped, n⟩) :
    ∃ row', dlfree a m (chunk2mem a p) = some m ∧ Frees a m row p m row' := by
  have htag := h.laid.tagged hk
  have hsize : 0 < n := (htag.size (by simp)).1
  have hresult := h.dlfree_mapped_eq hk
  obtain ⟨pre, post, rfl, rfl, rfl⟩ := After.split hk
  have hopen : lastKind .gap pre = .gap := by simpa [Kind.before] using htag.before
  obtain ⟨g, post, rfl⟩ := h.laid.gap_behind_mapped
  have hrow : pre ++ ([⟨.mapped, n⟩] ++ ⟨.gap, g⟩ :: post) = pre ++ ([⟨.mapped, n⟩, ⟨.gap, g⟩] ++ post) := rfl
  rw [hrow] at h hk ⊢
  have hmoves : Moves a (pre ++ ([⟨.mapped, n⟩, ⟨.gap, g⟩] ++ post)) (pre ++ ([⟨.gap, n⟩, ⟨.gap, g⟩] ++ post)) m.mem
      m.mem := by
    refine h.laid.replace rfl rfl ⟨tagged_gap (by rw [hopen]; rfl), tagged_gap rfl, trivial⟩ (fun _ _ => rfl)
      (by simp) (fun _ _ _ _ _ _ _ _ => rfl) ?_
    rintro k q n' (⟨-, -, heq⟩ | ⟨-, -, heq⟩ | hnil)
    · cases heq
    · cases heq
    · exact hnil.elim
  have haround : ∀ k q b, Around .gap 0 pre [⟨.gap, n⟩, ⟨.gap, g⟩] post k q b ↔
      Around .gap 0 pre [⟨.mapped, n⟩, ⟨.gap, g⟩] post k q b := fun k q b => around_congr rfl rfl
  have hat : ∀ q b, b.kind ≠ .gap → (At (pre ++ ([⟨.gap, n⟩, ⟨.gap, g⟩] ++ post)) q b ↔
      At (pre ++ ([⟨.mapped, n⟩, ⟨.gap, g⟩] ++ post)) q b ∧ q ≠ total pre) := by
    intro q b hb
    have hgap : ∀ t, b ≠ ⟨.gap, t⟩ := fun t heq => hb (heq ▸ rfl)
    have hout : ∀ k, Around .gap 0 pre [⟨.mapped, n⟩, ⟨.gap, g⟩] post k q b → q ≠ total pre := by
      intro k hk'
      have hplace := h.laid.around_place hk' hb
      simp only [total_cons] at hplace
      omega
    rw [at_around, at_around]
    simp only [haround, exists_placed_cons, exists_placed_nil, hgap, and_false, or_false]
    constructor
    · rintro ⟨k, hk'⟩
      exact ⟨Or.inl ⟨k, hk'⟩, hout k hk'⟩
    · rintro ⟨hk' | ⟨hq, -⟩, hne⟩
      · exact hk'
      · exact absurd hq hne
  have hother : ∀ q b, b.kind ≠ .gap → b.kind ≠ .mapped → (At (pre ++ ([⟨.gap, n⟩, ⟨.gap, g⟩] ++ post)) q b ↔
      At (pre ++ ([⟨.mapped, n⟩, ⟨.gap, g⟩] ++ post)) q b) := by
    intro q b hb hmapped
    rw [hat q b hb]
    refine and_iff_left_of_imp ?_
    rintro hq rfl
    rw [h.laid.unique hq ⟨_, hk⟩ hb (by simp)] at hmapped
    exact hmapped rfl
  have hinit : m.top ≠ 0 := fun hzero => by cases (h.bare hzero).2 _ _ ⟨_, hk⟩
  obtain ⟨seg, hrecorded, hsegments⟩ := h.segments
  have htotal : total (pre ++ ([⟨Kind.gap, n⟩, ⟨.gap, g⟩] ++ post)) =
      total (pre ++ ([⟨.mapped, n⟩, ⟨.gap, g⟩] ++ post)) := by
    simp
  refine ⟨_, hresult, ⟨⟨hmoves.target, fun q t => ?_, fun hzero => absurd hzero hinit, fun q b hb hgap => ?_,
    fun q b hb hgap => ?_, htotal ▸ h.room, h.started, seg, hrecorded.congr rfl Iff.rfl (fun _ _ _ => rfl)
    hmoves.records, hsegments.unmap hinit⟩, h.stored.congr fun q t => hother q _ (by simp) (by simp)⟩, hmoves, fun q t => ?_,
    htotal⟩
  · rw [hother q ⟨.top, t⟩ (by simp) (by simp)]
    exact h.top q t
  · exact h.least q b ((hat q b hgap).mp hb).1 hgap
  · exact h.outside q b ((hat q b hgap).mp hb).1 hgap
  · rw [Live, Live, hat q ⟨.client, t⟩ (by simp), hat q ⟨.mapped, t + a.word⟩ (by simp), or_and_right]

/-- `dlfree` of a client's chunk takes it back, and the others keep their contents. -/
theorem Inv.dlfree (h : Inv a m row) (hp : Live a row p n) :
    ∃ m' row', dlfree a m (chunk2mem a p) = some m' ∧ Frees a m row p m' row' := by
  obtain ⟨k, hk⟩ | ⟨k, hk⟩ := hp
  · exact h.dlfree_client hk
  · obtain ⟨row', heq, hfrees⟩ := h.dlfree_mapped hk
    exact ⟨m, row', heq, hfrees⟩

end Kiznix.Malloc
