import Kiznix.MallocRow

/-! The invariant of the allocator: the bins and the designated victim are the free chunks of the row, the top chunk
is its top block, each segment begins with a chunk, and the records of segments are chained. -/

namespace Kiznix.Malloc

open ByteMemory BlockRow
open Switch (Arch)

variable {a : Arch} {m : Memory} {n s p q t f : Nat} {F F' : Nat → Nat → Prop} {bins : Bins} {dv dvsize : Nat}

/-! ### Bins and designated victim -/

/-- The bins and the designated victim hold the chunks of `F`. -/
structure Stocked (bins : Bins) (dv dvsize : Nat) (F : Nat → Nat → Prop) : Prop where
  ok : bins.Ok
  holds : ∀ q n, bins.Holds q n ↔ F q n ∧ q ≠ dv
  victim : dvsize ≠ 0 → F dv dvsize
  vacant : dvsize = 0 → dv = 0
  chunk : ∀ q n, F q n → q ≠ 0 ∧ n ≠ 0 ∧ n % 8 = 0
  unique : ∀ q n n', F q n → F q n' → n = n'

theorem Stocked.congr (h : Stocked bins dv dvsize F) (hF : ∀ q n, F' q n ↔ F q n) : Stocked bins dv dvsize F' := by
  obtain rfl : F' = F := funext fun q => funext fun n => propext (hF q n)
  exact h

theorem Stocked.dv_eq (h : Stocked bins dv dvsize F) (hF : F dv n) : n = dvsize := by
  have hne : dvsize ≠ 0 := fun hzero => (h.chunk _ _ hF).1 (h.vacant hzero)
  exact h.unique _ _ _ hF (h.victim hne)

/-- A chunk leaves its bin. -/
theorem Stocked.unlink (h : Stocked bins dv dvsize F) {bins' : Bins} (hp : F p s) (hdv : p ≠ dv)
    (hbins : bins'.Ok ∧ ∀ q t, bins'.Holds q t ↔ bins.Holds q t ∧ ¬ (q = p ∧ t = s)) :
    Stocked bins' dv dvsize fun q n => F q n ∧ q ≠ p where
  ok := hbins.1
  holds q n := by
    rw [hbins.2, h.holds, and_assoc, and_assoc]
    refine and_congr_right fun hq => ?_
    rw [and_comm]
    refine and_congr_left fun _ => not_congr ⟨And.left, fun heq => ⟨heq, ?_⟩⟩
    subst heq
    exact h.unique _ _ _ hq hp
  victim hne := ⟨h.victim hne, hdv.symm⟩
  vacant := h.vacant
  chunk q n hq := h.chunk q n hq.1
  unique q n n' hq hq' := h.unique q n n' hq.1 hq'.1

theorem Stocked.unique_new (h : Stocked bins dv dvsize F) (hnew : ∀ t, ¬ F p t) {n' : Nat}
    (hq : F q n ∨ (q = p ∧ n = s)) (hq' : F q n' ∨ (q = p ∧ n' = s)) : n = n' := by
  obtain hq | ⟨rfl, rfl⟩ := hq
  · obtain hq' | ⟨rfl, rfl⟩ := hq'
    · exact h.unique q n n' hq hq'
    · exact absurd hq (hnew n)
  · obtain hq' | ⟨-, rfl⟩ := hq'
    · exact absurd hq' (hnew n')
    · rfl

/-- A chunk goes to a bin. -/
theorem Stocked.insert (h : Stocked bins dv dvsize F) {bins' : Bins} (hnew : ∀ t, ¬ F p t) (hp : p ≠ 0) (hs : s ≠ 0)
    (hmod : s % 8 = 0) (hbins : bins'.Ok ∧ ∀ q t, bins'.Holds q t ↔ bins.Holds q t ∨ (q = p ∧ t = s)) :
    Stocked bins' dv dvsize fun q n => F q n ∨ (q = p ∧ n = s) where
  ok := hbins.1
  holds q n := by
    have hdv : p ≠ dv := by
      rintro rfl
      by_cases hzero : dvsize = 0
      · exact hp (h.vacant hzero)
      · exact hnew _ (h.victim hzero)
    rw [hbins.2, h.holds, or_and_right]
    refine or_congr_right ⟨fun hq => ⟨hq, hq.1 ▸ hdv⟩, And.left⟩
  victim hne := Or.inl (h.victim hne)
  vacant := h.vacant
  chunk _ _ hq := hq.elim (h.chunk _ _) fun ⟨hq, hn⟩ => hq ▸ hn ▸ ⟨hp, hs, hmod⟩
  unique _ _ _ := h.unique_new hnew

theorem Stocked.not_holds (h : Stocked bins dv dvsize F) (hnew : ∀ t, ¬ F p t) (t : Nat) : ¬ bins.Holds p t :=
  fun hheld => hnew t ((h.holds p t).mp hheld).1

/-- The designated victim is taken. -/
theorem Stocked.takeDv (h : Stocked bins dv dvsize F) : Stocked bins 0 0 fun q n => F q n ∧ q ≠ dv where
  ok := h.ok
  holds q n := by
    rw [h.holds]
    exact (and_iff_left_of_imp fun hq => (h.chunk q n hq.1).1).symm
  victim hne := absurd rfl hne
  vacant _ := rfl
  chunk q n hq := h.chunk q n hq.1
  unique q n n' hq hq' := h.unique q n n' hq.1 hq'.1

/-- A chunk becomes the designated victim. -/
theorem Stocked.setDv (h : Stocked bins 0 0 F) (hnew : ∀ t, ¬ F p t) (hp : p ≠ 0) (hs : s ≠ 0) (hmod : s % 8 = 0) :
    Stocked bins p s fun q n => F q n ∨ (q = p ∧ n = s) where
  ok := h.ok
  holds q n := by
    rw [h.holds]
    constructor
    · exact fun hq => ⟨Or.inl hq.1, fun heq => hnew n (heq ▸ hq.1)⟩
    · rintro ⟨hq | ⟨rfl, -⟩, hne⟩
      · exact ⟨hq, (h.chunk q n hq).1⟩
      · exact absurd rfl hne
  victim _ := Or.inr ⟨rfl, rfl⟩
  vacant hzero := absurd hzero hs
  chunk _ _ hq := hq.elim (h.chunk _ _) fun ⟨hq, hn⟩ => hq ▸ hn ▸ ⟨hp, hs, hmod⟩
  unique _ _ _ := h.unique_new hnew

theorem Stocked.unlinkChunk (h : Stocked bins dv dvsize F) (hp : F p s) (hdv : p ≠ dv) :
    Stocked (bins.unlinkChunk p s) dv dvsize fun q n => F q n ∧ q ≠ p :=
  h.unlink hp hdv (h.ok.unlinkChunk ((h.holds p s).mpr ⟨hp, hdv⟩))

theorem Stocked.insertChunk (h : Stocked bins dv dvsize F) (hnew : ∀ t, ¬ F p t) (hp : p ≠ 0) (hs : s ≠ 0)
    (hmod : s % 8 = 0) : Stocked (bins.insertChunk a p s) dv dvsize fun q n => F q n ∨ (q = p ∧ n = s) :=
  h.insert hnew hp hs hmod (h.ok.insertChunk hmod (h.not_holds hnew))

/-- The old designated victim goes to a small bin, and a chunk takes its place. -/
theorem Stocked.replaceDv (h : Stocked bins dv dvsize F) (hsmall : isSmall dvsize = true) (hnew : ∀ t, ¬ F p t)
    (hp : p ≠ 0) (hs : s ≠ 0) (hmod : s % 8 = 0) :
    Stocked (if dvsize ≠ 0 then bins.insertSmallChunk dv dvsize else bins) p s
      fun q n => F q n ∨ (q = p ∧ n = s) := by
  have htaken : Stocked (if dvsize ≠ 0 then bins.insertSmallChunk dv dvsize else bins) 0 0 F := by
    split
    · next hne =>
        have hdv := h.victim hne
        obtain ⟨hzero, -, hmod'⟩ := h.chunk _ _ hdv
        have hout := h.takeDv
        have hgone : ∀ t, ¬ (F dv t ∧ dv ≠ dv) := fun t ht => ht.2 rfl
        refine (hout.insert hgone hzero hne hmod'
          (hout.ok.insertSmallChunk hsmall hmod' (hout.not_holds hgone _))).congr fun q n => ?_
        constructor
        · intro hq
          by_cases heq : q = dv
          · subst heq
            exact Or.inr ⟨rfl, h.dv_eq hq⟩
          · exact Or.inl ⟨hq, heq⟩
        · rintro (hq | ⟨rfl, rfl⟩)
          · exact hq.1
          · exact hdv
    · next hzero =>
        have hzero := not_not.mp hzero
        obtain rfl := h.vacant hzero
        exact h.takeDv.congr fun q n => (and_iff_left_of_imp fun hq => (h.chunk q n hq).1).symm
  exact htaken.setDv hnew hp hs hmod

/-! ### Segments in memory -/

/-- Each segment begins with a chunk after a gap, and the top chunk is at the end of the first one, with a gap behind
it. -/
structure Segments (a : Arch) (row : List (Block Kind)) (seg : List Segment) (top topsize : Nat) : Prop where
  opens : ∀ sp ∈ seg, ∃ b, After row .gap sp.base b ∧ b.kind ≠ .gap ∧ b.kind ≠ .mapped
  large : ∀ sp ∈ seg, granularity ≤ sp.size
  below : ∀ sp ∈ seg, sp.base + sp.size ≤ total row
  ordered : seg.Pairwise fun sp sp' => sp'.base + sp'.size ≤ sp.base
  current : top ≠ 0 → ∃ sp rest, seg = sp :: rest ∧ sp.base ≤ top ∧ top + topsize + topFootSize a = sp.base + sp.size
  foot : top ≠ 0 → After row .top (top + topsize) ⟨.gap, topFootSize a⟩

/-- Records of segments from `sp` on, each in a chunk of its own. -/
def Chained (a : Arch) (s : State) (row : List (Block Kind)) : Nat → List Segment → Prop
  | sp, [] => sp = 0
  | sp, seg :: rest => s.segment a sp = seg ∧ seg.sflags = useMmapBit ∧
      (∃ q, sp = chunk2mem a q ∧ At row q ⟨.record, segmentChunkSize a⟩) ∧ Chained a s row seg.next rest

/-- The segments: the first record is in `_gm_`. -/
def Recorded (a : Arch) (s : State) (row : List (Block Kind)) (seg : List Segment) : Prop :=
  if s.top = 0 then seg = [] ∧ (s.segment a (s.seg a)).next = 0
  else ∃ rest, seg = s.segment a (s.seg a) :: rest ∧ (s.segment a (s.seg a)).sflags = useMmapBit ∧
    Chained a s row (s.segment a (s.seg a)).next rest

section Records

variable {s s' : State} {row row' : List (Block Kind)} {seg rest : List Segment} {sp : Nat}

theorem State.segment_congr (h : ∀ x, sp ≤ x → x < sp + 3 * a.word + 4 → s'.mem x = s.mem x) :
    s'.segment a sp = s.segment a sp := by
  have hword := word_cases a
  rw [State.segment, State.segment, Segment.mk.injEq]
  refine ⟨?_, ?_, ?_, ?_⟩ <;> exact load_congr fun x hlow hhigh => h x (by omega) (by omega)

theorem Chained.congr (h : Chained a s row sp seg) (hrecords : ∀ q n, At row q ⟨.record, n + a.word⟩ →
    At row' q ⟨.record, n + a.word⟩ ∧ SameBody a s.mem s'.mem q n) : Chained a s' row' sp seg := by
  induction seg generalizing sp with
  | nil => exact h
  | cons seg rest ih =>
      obtain ⟨hsegment, hflags, ⟨q, rfl, hat⟩, hrest⟩ := h
      have hword := word_cases a
      have hsix : segmentChunkSize a = 5 * a.word + a.word := by
        rw [segmentChunkSize_eq]
        omega
      rw [hsix] at hat
      obtain ⟨hnew, hsame⟩ := hrecords q _ hat
      rw [← hsix] at hnew
      refine ⟨?_, hflags, ⟨q, rfl, hnew⟩, ih hrest⟩
      rw [← hsegment]
      refine State.segment_congr fun x hlow hhigh => hsame x ?_ ?_ <;> rw [chunk2mem] at hlow hhigh <;> omega

theorem Recorded.congr (h : Recorded a s row seg) (hgm : s'.gm = s.gm) (htop : s'.top = 0 ↔ s.top = 0)
    (hmem : ∀ x, s.gm + segOffset a ≤ x → x < s.gm + gmSize a → s'.mem x = s.mem x)
    (hrecords : ∀ q n, At row q ⟨.record, n + a.word⟩ →
      At row' q ⟨.record, n + a.word⟩ ∧ SameBody a s.mem s'.mem q n) : Recorded a s' row' seg := by
  have hword := word_cases a
  have hseg : s'.seg a = s.seg a := by rw [State.seg, State.seg, hgm]
  have hsegment : s'.segment a (s.seg a) = s.segment a (s.seg a) := State.segment_congr fun x hlow hhigh => by
    rw [State.seg] at hlow hhigh
    refine hmem x hlow ?_
    rw [gmSize]
    omega
  rw [Recorded, hseg, hsegment]
  by_cases hzero : s.top = 0
  · rw [if_pos (htop.mpr hzero)]
    rwa [Recorded, if_pos hzero] at h
  · rw [if_neg (htop.not.mpr hzero)]
    rw [Recorded, if_neg hzero] at h
    obtain ⟨rest, hrest, hflags, hchained⟩ := h
    exact ⟨rest, hrest, hflags, hchained.congr hrecords⟩

end Records

/-! ### The layout of memory -/

/-- What memory and the state say about the row, but for the free chunks. -/
structure Layout (a : Arch) (m : State) (row : List (Block Kind)) : Prop where
  laid : Row a m.mem row
  top : ∀ q n, At row q ⟨.top, n⟩ ↔ m.top ≠ 0 ∧ q = m.top ∧ n = m.topsize
  bare : m.top = 0 → m.topsize = 0 ∧ ∀ q b, At row q b → b.kind = .gap
  least : ∀ q b, At row q b → b.kind ≠ .gap → m.leastAddr ≤ q
  outside : ∀ q b, At row q b → b.kind ≠ .gap → m.gm + gmSize a ≤ q
  room : m.gm + gmSize a ≤ total row
  started : m.top ≠ 0 → m.leastAddr ≠ 0
  segments : ∃ seg, Recorded a m row seg ∧ Segments a row seg m.top m.topsize

/-- The free chunks are in the bins, whose links are in memory, or the designated victim. -/
def Stored (a : Arch) (m : State) (F : Nat → Nat → Prop) : Prop :=
  ∃ bins, Stocked bins m.dv m.dvsize F ∧ Binned a m bins

structure Inv (a : Arch) (m : State) (row : List (Block Kind)) : Prop extends Layout a m row where
  stored : Stored a m fun q n => At row q ⟨.free, n⟩

section Replace

variable {pre mid mid' post ms ms' : List (Block Kind)} {s s' : State} {k : Kind} {b : Block Kind} {t' : Nat}

theorem at_around : At (pre ++ (mid ++ post)) q b ↔ (∃ k, Around .gap 0 pre mid post k q b) ∨
    ∃ k, Placed (lastKind .gap pre) (total pre) mid k q b := by
  rw [← exists_or]
  exact exists_congr fun k => after_around

/-- What a step that leaves the top chunk and the segments says about the state. -/
structure SameTop (s s' : State) : Prop where
  top : s'.top = s.top
  topsize : s'.topsize = s.topsize
  leastAddr : s'.leastAddr = s.leastAddr
  gm : s'.gm = s.gm

theorem SameTop.refl : SameTop s s := ⟨rfl, rfl, rfl, rfl⟩

theorem SameTop.trans {s'' : State} (h : SameTop s s') (h' : SameTop s' s'') : SameTop s s'' :=
  ⟨h'.top.trans h.top, h'.topsize.trans h.topsize, h'.leastAddr.trans h.leastAddr, h'.gm.trans h.gm⟩

theorem Segments.replace {seg : List Segment} {top topsize top' topsize' : Nat}
    (h : Segments a (pre ++ (mid ++ post)) seg top topsize)
    (htotal : total mid' = total mid) (hkind : lastKind (lastKind .gap pre) mid' = lastKind (lastKind .gap pre) mid)
    (hmid : ∀ c ∈ mid, c.kind ≠ .gap) (hb : b.kind ≠ .gap ∧ b.kind ≠ .mapped) (hfirst : mid'.head? = some b)
    (hinit : top' ≠ 0 → top ≠ 0) (hends : top' + topsize' = top + topsize)
    (hbase : top' ≠ 0 → ∀ sp ∈ seg, sp.base ≤ top → sp.base ≤ top') :
    Segments a (pre ++ (mid' ++ post)) seg top' topsize' where
  opens sp hsp := by
    obtain ⟨c, hc, hckind⟩ := h.opens sp hsp
    obtain haround | hplaced := after_around.mp hc
    · exact ⟨c, after_around.mpr (Or.inl ((around_congr htotal hkind).mpr haround)), hckind⟩
    · obtain ⟨hopen, hbase⟩ := hplaced.first hmid
      obtain ⟨rest, rfl⟩ : ∃ rest, mid' = b :: rest := by
        cases mid' with
        | nil => cases hfirst
        | cons c rest => exact ⟨rest, by rw [Option.some.inj hfirst]⟩
      exact ⟨b, after_around.mpr (Or.inr (Or.inl ⟨hopen, hbase, rfl⟩)), hb⟩
  large := h.large
  below sp hsp := by
    have hbelow := h.below sp hsp
    rw [total_append, total_append] at hbelow ⊢
    rwa [htotal]
  ordered := h.ordered
  current hne := by
    obtain ⟨sp, rest, hseg, hle, hend⟩ := h.current (hinit hne)
    exact ⟨sp, rest, hseg, hbase hne sp (hseg ▸ List.mem_cons_self) hle, hends ▸ hend⟩
  foot hne := by
    rw [hends]
    obtain haround | hplaced := after_around.mp (h.foot (hinit hne))
    · exact after_around.mpr (Or.inl ((around_congr htotal hkind).mpr haround))
    · exact absurd rfl (hmid _ hplaced.mem)

theorem Segments.extend {M : Memory} {row ext : List (Block Kind)} {seg : List Segment} {top topsize : Nat}
    (h : Segments a row seg top topsize) (hrow : Row a M row) : Segments a (row ++ ext) seg top topsize where
  opens sp hsp := by
    obtain ⟨b, hb, hkind⟩ := h.opens sp hsp
    exact ⟨b, hrow.after_extend.mpr (Or.inl hb), hkind⟩
  large := h.large
  below sp hsp := by
    rw [total_append]
    exact (h.below sp hsp).trans (Nat.le_add_right _ _)
  ordered := h.ordered
  current := h.current
  foot hinit := hrow.after_extend.mpr (Or.inl (h.foot hinit))

/-- Blocks that stay at or above an address. -/
theorem low_replace {low : Nat} (h : ∀ q b, At (pre ++ (mid ++ post)) q b → b.kind ≠ .gap → low ≤ q)
    (htotal : total mid' = total mid)
    (hkind : lastKind (lastKind .gap pre) mid' = lastKind (lastKind .gap pre) mid)
    (hmid : ∀ c ∈ mid, c.kind ≠ .gap) (hne : mid ≠ []) (hb : At (pre ++ (mid' ++ post)) q b) (hgap : b.kind ≠ .gap) :
    low ≤ q := by
  obtain ⟨k, haround⟩ | ⟨k, hplaced⟩ := at_around.mp hb
  · exact h q b (at_around.mpr (Or.inl ⟨k, (around_congr htotal hkind).mp haround⟩)) hgap
  · obtain ⟨c, rest, rfl⟩ := List.exists_cons_of_ne_nil hne
    have hfirst := h (total pre) c (at_around.mpr (Or.inr ⟨_, Or.inl ⟨rfl, rfl, rfl⟩⟩)) (hmid c List.mem_cons_self)
    exact hfirst.trans hplaced.bounds.1

/-- `_gm_` is before the first of some chunks. -/
theorem Layout.outside_first (h : Layout a s (pre ++ (mid ++ post))) (hmid : ∀ c ∈ mid, c.kind ≠ .gap)
    (hne : mid ≠ []) : s.gm + gmSize a ≤ total pre := by
  obtain ⟨c, rest, rfl⟩ := List.exists_cons_of_ne_nil hne
  exact h.outside (total pre) c (at_around.mpr (Or.inr ⟨_, Or.inl ⟨rfl, rfl, rfl⟩⟩)) (hmid c List.mem_cons_self)

theorem Layout.not_bare (h : Layout a s (pre ++ (mid ++ post))) (hmid : ∀ c ∈ mid, c.kind ≠ .gap) (hne : mid ≠ []) :
    s.top ≠ 0 := by
  intro hzero
  obtain ⟨c, rest, rfl⟩ := List.exists_cons_of_ne_nil hne
  exact hmid c List.mem_cons_self
    ((h.bare hzero).2 (total pre) c (at_around.mpr (Or.inr ⟨_, Or.inl ⟨rfl, rfl, rfl⟩⟩)))

/-- The top chunk in the row, with the gap behind it. -/
theorem Layout.split_top {row : List (Block Kind)} (h : Layout a s row) (hinit : s.top ≠ 0) :
    ∃ pre post, row = pre ++ ([⟨.top, s.topsize⟩, ⟨.gap, topFootSize a⟩] ++ post) ∧ s.top = total pre := by
  obtain ⟨seg, -, hsegments⟩ := h.segments
  obtain ⟨pre, post, rfl, hplace, hkind⟩ := After.split (hsegments.foot hinit)
  obtain rfl | ⟨pre, b, rfl⟩ := pre.eq_nil_or_concat
  · cases hkind
  · rw [List.concat_eq_append, lastKind_append] at hkind
    rw [List.concat_eq_append, total_append] at hplace
    obtain ⟨c, n⟩ := b
    obtain rfl : c = .top := hkind.symm
    have hat : At (pre.concat ⟨.top, n⟩ ++ ([⟨.gap, topFootSize a⟩] ++ post)) (total pre) ⟨.top, n⟩ := by
      rw [List.concat_eq_append, List.append_assoc]
      exact at_around.mpr (Or.inr ⟨_, Or.inl ⟨rfl, rfl, rfl⟩⟩)
    obtain ⟨-, htop, rfl⟩ := (h.top _ _).mp hat
    exact ⟨pre, post, by rw [List.concat_eq_append, List.append_assoc]; rfl, htop.symm⟩

/-- Chunks take the place of others, and the top chunk stays. -/
theorem Layout.replace (h : Layout a s (pre ++ (mid ++ post)))
    (hmoves : Moves a (pre ++ (mid ++ post)) (pre ++ (mid' ++ post)) s.mem s'.mem)
    (hmem : SameAround a pre mid s.mem s'.mem) (hsame : SameTop s s')
    (htotal : total mid' = total mid) (hkind : lastKind (lastKind .gap pre) mid' = lastKind (lastKind .gap pre) mid)
    (hne : mid ≠ []) (hmid : ∀ c ∈ mid, c.kind ≠ .gap ∧ c.kind ≠ .top)
    (hmid' : ∀ c ∈ mid', c.kind ≠ .top) (hfirst : mid'.head? = some b) (hb : b.kind ≠ .gap ∧ b.kind ≠ .mapped) :
    Layout a s' (pre ++ (mid' ++ post)) where
  laid := hmoves.target
  top q n := by
    rw [hsame.top, hsame.topsize, ← h.top, at_around, at_around]
    have hold : ¬ ∃ k, Placed (lastKind .gap pre) (total pre) mid k q ⟨.top, n⟩ :=
      fun ⟨_, hplaced⟩ => (hmid _ hplaced.mem).2 rfl
    have hnew : ¬ ∃ k, Placed (lastKind .gap pre) (total pre) mid' k q ⟨.top, n⟩ :=
      fun ⟨_, hplaced⟩ => hmid' _ hplaced.mem rfl
    rw [or_iff_left hold, or_iff_left hnew]
    exact exists_congr fun k => around_congr htotal hkind
  bare hzero := absurd (hsame.top ▸ hzero) (h.not_bare (fun c hc => (hmid c hc).1) hne)
  least q b hq hgap := by
    rw [hsame.leastAddr]
    exact low_replace h.least htotal hkind (fun c hc => (hmid c hc).1) hne hq hgap
  outside q b hq hgap := by
    rw [hsame.gm]
    exact low_replace h.outside htotal hkind (fun c hc => (hmid c hc).1) hne hq hgap
  room := by
    have hroom := h.room
    rw [total_append, total_append] at hroom ⊢
    rwa [hsame.gm, htotal]
  started hinit := hsame.leastAddr ▸ h.started (hsame.top ▸ hinit)
  segments := by
    obtain ⟨seg, hrecorded, hsegments⟩ := h.segments
    have hlow := h.outside_first (fun c hc => (hmid c hc).1) hne
    rw [hsame.top, hsame.topsize]
    exact ⟨seg, hrecorded.congr hsame.gm (by rw [hsame.top]) (fun x _ hx => hmem x (by omega)) hmoves.records,
      hsegments.replace htotal hkind (fun c hc => (hmid c hc).1) hb hfirst id rfl fun _ _ _ hle => hle⟩

/-- The top chunk gives chunks away, or takes chunks in. -/
theorem Layout.retop (h : Layout a s (pre ++ ((ms ++ [⟨.top, t⟩]) ++ post)))
    (hmoves : Moves a (pre ++ ((ms ++ [⟨.top, t⟩]) ++ post)) (pre ++ ((ms' ++ [⟨.top, t'⟩]) ++ post)) s.mem s'.mem)
    (hmem : SameAround a pre (ms ++ [⟨.top, t⟩]) s.mem s'.mem)
    (htotal : total ms' + t' = total ms + t) (hms : ∀ c ∈ ms, c.kind ≠ .gap ∧ c.kind ≠ .top)
    (hms' : ∀ c ∈ ms', c.kind ≠ .gap ∧ c.kind ≠ .top ∧ c.kind ≠ .mapped) (htop : s'.top = total pre + total ms')
    (htopsize : s'.topsize = t') (hleast : s'.leastAddr = s.leastAddr) (hgm : s'.gm = s.gm) :
    Layout a s' (pre ++ ((ms' ++ [⟨.top, t'⟩]) ++ post)) := by
  have hplaced : ∀ (ms : List (Block Kind)) t, Placed (lastKind .gap pre) (total pre) (ms ++ [⟨.top, t⟩])
      (lastKind (lastKind .gap pre) ms) (total pre + total ms) ⟨.top, t⟩ :=
    fun ms t => placed_append.mpr (Or.inr (Or.inl ⟨rfl, rfl, rfl⟩))
  have hat : At (pre ++ ((ms ++ [⟨.top, t⟩]) ++ post)) (total pre + total ms) ⟨.top, t⟩ :=
    at_around.mpr (Or.inr ⟨_, hplaced ms t⟩)
  have hat' : At (pre ++ ((ms' ++ [⟨.top, t'⟩]) ++ post)) (total pre + total ms') ⟨.top, t'⟩ :=
    at_around.mpr (Or.inr ⟨_, hplaced ms' t'⟩)
  obtain ⟨hinit, hold, hsize⟩ := (h.top _ _).mp hat
  have htotal' : total (ms' ++ [⟨.top, t'⟩]) = total (ms ++ [⟨.top, t⟩]) := by simpa using htotal
  have hkind' : lastKind (lastKind .gap pre) (ms' ++ [⟨.top, t'⟩]) =
      lastKind (lastKind .gap pre) (ms ++ [⟨.top, t⟩]) := by
    simp
  have hmid : ∀ c ∈ ms ++ [⟨Kind.top, t⟩], c.kind ≠ .gap := by
    intro c hc
    obtain hc | hc := List.mem_append.mp hc
    · exact (hms c hc).1
    · rw [List.mem_singleton.mp hc]
      nofun
  have hpos : 0 < total pre + total ms' := by
    obtain ⟨k, hk⟩ := hat'
    exact ((hmoves.target.tagged hk).place nofun).1
  refine ⟨hmoves.target, fun q n => ?_, fun hzero => absurd hzero (by omega), fun q b hq hgap => ?_,
    fun q b hq hgap => ?_, ?_, fun _ => hleast ▸ h.started hinit, ?_⟩
  · rw [htop, htopsize]
    constructor
    · intro hq
      obtain ⟨k, haround⟩ | ⟨k, hplaced'⟩ := at_around.mp hq
      · -- No other block is the top chunk.
        have hq' := (h.top q n).mp (at_around.mpr (Or.inl ⟨k, (around_congr htotal' hkind').mp haround⟩))
        have hapart := around_apart ((around_congr htotal' hkind').mp haround)
        obtain ⟨-, rfl, rfl⟩ := hq'
        obtain ⟨k, hk⟩ := hat
        have htpos : 0 < t := ((h.laid.tagged hk).size nofun).1
        rw [total_append, total_cons, total_nil] at hapart
        dsimp only at hapart
        omega
      · obtain hplaced' | ⟨-, rfl, heq⟩ | hplaced' := placed_append.mp hplaced'
        · exact absurd rfl (hms' _ hplaced'.mem).2.1
        · exact ⟨by omega, rfl, congrArg Block.size heq⟩
        · exact hplaced'.elim
    · rintro ⟨-, rfl, rfl⟩
      exact hat'
  · rw [hleast]
    exact low_replace h.least htotal' hkind' hmid (by simp) hq hgap
  · rw [hgm]
    exact low_replace h.outside htotal' hkind' hmid (by simp) hq hgap
  · have hroom := h.room
    rw [total_append, total_append] at hroom ⊢
    rwa [hgm, htotal']
  · obtain ⟨seg, hrecorded, hsegments⟩ := h.segments
    have hlow := h.outside_first hmid (by simp)
    refine ⟨seg, hrecorded.congr hgm (by omega) (fun x _ hx => hmem x (by omega)) hmoves.records, ?_⟩
    rw [htop, htopsize]
    have hfirst : ∃ b : Block Kind,
        (ms' ++ [(⟨.top, t'⟩ : Block Kind)]).head? = some b ∧ b.kind ≠ .gap ∧ b.kind ≠ .mapped := by
      cases ms' with
      | nil => exact ⟨⟨.top, t'⟩, rfl, nofun, nofun⟩
      | cons c rest => exact ⟨c, rfl, (hms' c List.mem_cons_self).1, (hms' c List.mem_cons_self).2.2⟩
    obtain ⟨b, hfirst, hb⟩ := hfirst
    refine hsegments.replace htotal' hkind' hmid hb hfirst (fun _ => hinit) (by omega) fun _ sp hsp hle => ?_
    -- The segment begins with a block after a gap, so not between the chunks of `mid`.
    obtain ⟨c, hc, hcgap, -⟩ := hsegments.opens sp hsp
    obtain haround | hplaced' := after_around.mp hc
    · have hcsize := ((h.laid.tagged hc).size hcgap).1
      have hbounds := haround.bounds
      obtain ⟨k, hk⟩ := hat
      have htpos : 0 < t := ((h.laid.tagged hk).size nofun).1
      rw [total_append, total_cons, total_nil] at hbounds
      dsimp only at hbounds
      omega
    · have hfirst := (hplaced'.first hmid).2
      omega

end Replace

end Kiznix.Malloc
