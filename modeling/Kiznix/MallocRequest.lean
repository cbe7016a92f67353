import Kiznix.MallocFree

/-! Requests of clients: the chunk size for a request, when there is no chunk for it, and what clients write into
theirs. -/

namespace Kiznix.Malloc

open ByteMemory BlockRow
open Switch (Arch)

variable {a : Arch} {m m' : State} {row row' : List (Block Kind)} {p q n t nb nb' bytes mem stop req : Nat}
  {mmap mmap' : Mmap} {fails fails' : Prop} {result : Option (State × Nat)}

/-! ### `dlmalloc` -/

theorem Served.mono (h : Served a m row stop nb fails result) (hle : nb' ≤ nb) (hfails : fails → fails') :
    Served a m row stop nb' fails' result := by
  obtain ⟨m', mem, heq, ⟨row', p, n, hgives⟩ | ⟨hm, hmem, hfail⟩⟩ := h
  · exact ⟨m', mem, heq, Or.inl ⟨row', p, n, hgives.mem, hle.trans hgives.enough, hgives.inv, hgives.moves,
      hgives.fresh, hgives.live, hgives.within⟩⟩
  · exact ⟨m', mem, heq, Or.inr ⟨hm, hmem, hfails hfail⟩⟩

/-- `request2size(req)`. -/
def request2size (a : Arch) (req : Nat) : Nat := if req < minRequest a then minChunkSize a else padRequest a req

/-- The request is larger than any that is served, or the system does not give the memory that is asked for. -/
def Refused (a : Arch) (mmap' : Mmap) (bytes : Nat) : Prop :=
  maxRequest a ≤ bytes ∨ Exhausted a mmap' (request2size a bytes)

/-- The chunk size for a request. -/
theorem padRequest_spec (hreq : req + 4 * a.word ≤ 2 ^ a.bits) : req + a.word ≤ padRequest a req ∧
    padRequest a req < req + 3 * a.word ∧ padRequest a req % mallocAlignment a = 0 := by
  have hword := word_cases a
  rw [padRequest, alignSize, sizeAdd, sizeAdd, chunkOverhead, alignment_eq,
    Nat.mod_eq_of_lt (show req + a.word < _ by omega),
    Nat.mod_eq_of_lt (show req + a.word + (2 * a.word - 1) < _ by omega)]
  refine ⟨?_, ?_, Nat.mul_mod_left _ _⟩
  · obtain hw | hw := hword <;> rw [hw] <;> omega
  · obtain hw | hw := hword <;> rw [hw] <;> omega

theorem padRequest_chunk (hreq : req + 4 * a.word ≤ 2 ^ a.bits) (hmin : minRequest a ≤ req) :
    ChunkSize a (padRequest a req) := by
  obtain ⟨hle, -, hmod⟩ := padRequest_spec hreq
  refine ⟨hmod, ?_⟩
  rw [minRequest, minChunkSize, chunkOverhead] at hmin
  rw [alignment_eq] at hmod
  rw [minChunkSize]
  obtain hw | hw := word_cases a <;> rw [hw] at hmin hle hmod ⊢ <;> omega

theorem maxRequest_eq (a : Arch) : maxRequest a + 16 * a.word = 2 ^ a.bits := by
  cases a <;> decide

theorem maxSmallRequest_eq (a : Arch) : maxSmallRequest a + 3 * a.word = 256 := by
  cases a <;> decide

/-- A request that is too large is not served. -/
theorem Inv.mallocRest_max (h : Inv a m row) :
    Malloc.mallocRest a m mmap mmap' (maxSizeT a) = some (m, 0) := by
  have hmax : maxSizeT a + 1 = 2 ^ a.bits := by cases a <;> decide
  have hdv : ¬ maxSizeT a ≤ m.dvsize := by
    by_cases hzero : m.dvsize = 0
    · have hpos : 0 < maxSizeT a := by cases a <;> decide
      omega
    · obtain ⟨bins, hstocked, -⟩ := h.stored
      obtain ⟨k, hk⟩ := hstocked.victim hzero
      have hlt : m.dvsize + 8 ≤ 2 ^ a.bits := h.laid.size_lt hk nofun
      omega
  have htop : ¬ maxSizeT a < m.topsize := by
    by_cases hinit : m.top = 0
    · have hzero := (h.bare hinit).1
      omega
    · obtain ⟨k, hk⟩ := (h.top _ _).mpr ⟨hinit, rfl, rfl⟩
      have hlt : m.topsize + 8 ≤ 2 ^ a.bits := h.laid.size_lt hk nofun
      omega
  have hdirect : ¬ maxSizeT a < mmapSize a (maxSizeT a) := by cases a <;> decide
  have hwrap : allocSize a (maxSizeT a) ≤ maxSizeT a := by cases a <;> decide
  rw [Malloc.mallocRest, if_neg hdv, if_neg htop, Malloc.sysAlloc, Malloc.mmapAlloc, if_neg hdirect, ite_self]
  dsimp only
  rw [if_neg (not_not.mpr rfl), if_pos hwrap]

theorem Inv.dlmalloc_max (h : Inv a m row) : Malloc.dlmalloc a m mmap mmap' (maxSizeT a) = some (m, 0) := by
  have hsmall : ¬ maxSizeT a ≤ maxSmallRequest a := by cases a <;> decide
  have hlarge : maxRequest a ≤ maxSizeT a := by cases a <;> decide
  rw [Malloc.dlmalloc, if_neg hsmall, if_pos hlarge, h.mallocRest_max]

/-- The chunk for a request that is not too large. -/
theorem request2size_spec (hfits : bytes + 4 * a.word ≤ 2 ^ a.bits) : ChunkSize a (request2size a bytes) ∧
    bytes + a.word ≤ request2size a bytes ∧ request2size a bytes ≤ bytes + 4 * a.word ∧
    (bytes ≤ maxSmallRequest a → request2size a bytes < 256) := by
  have hword := word_cases a
  have hsmallmax := maxSmallRequest_eq a
  rw [request2size]
  split
  · next hlt =>
      rw [minRequest, minChunkSize, chunkOverhead] at hlt
      refine ⟨⟨?_, le_rfl⟩, ?_, ?_, ?_⟩
      · rw [minChunkSize, alignment_eq]
        obtain hw | hw := hword <;> rw [hw]
      all_goals rw [minChunkSize]; omega
  · next hge =>
      obtain ⟨hle, hlt, hmod⟩ := padRequest_spec hfits
      exact ⟨padRequest_chunk hfits (Nat.not_lt.mp hge), hle, by omega, by omega⟩

theorem Inv.dlmalloc (h : Inv a m row) (hmmap : Answers a row stop mmap) (hmmap' : Answers a row stop mmap')
    (hbytes : bytes < 2 ^ a.bits) :
    Served a m row stop (bytes + a.word) (Refused a mmap' bytes) (dlmalloc a m mmap mmap' bytes) := by
  have hword := word_cases a
  have hmax := maxRequest_eq a
  have hsmallmax := maxSmallRequest_eq a
  have hbits : 2 ^ 32 ≤ 2 ^ a.bits := by cases a <;> decide
  by_cases htoo : maxRequest a ≤ bytes
  · rw [Malloc.dlmalloc, if_neg (by omega), if_pos htoo, h.mallocRest_max]
    exact ⟨m, 0, rfl, Or.inr ⟨rfl, rfl, Or.inl htoo⟩⟩
  · have hroom : bytes + 4 * a.word ≤ 2 ^ a.bits := by omega
    obtain ⟨hchunk, hle, hpad, hlt⟩ := request2size_spec hroom
    have hserved : Served a m row stop (request2size a bytes) (Exhausted a mmap' (request2size a bytes)) _ :=
      h.mallocRest hchunk (h.sysAlloc hchunk (by omega) hmmap hmmap')
    rw [Malloc.dlmalloc]
    split
    · next hsmall => exact (h.mallocSmall hchunk (hlt hsmall) (by omega) hserved).mono hle Or.inr
    · next hlarge =>
        have hsize : padRequest a bytes = request2size a bytes := by
          rw [request2size, minRequest, minChunkSize, chunkOverhead, if_neg (by omega)]
        rw [hsize]
        split
        · exact (orRest_served (h.tmallocLarge hchunk (by omega)) hserved).mono hle Or.inr
        · exact hserved.mono hle Or.inr

/-- The product that `dlcalloc` asks for: the true one, or more than there is when it overflows. -/
theorem callocRequest_eq {x y : Nat} (hx : x < 2 ^ a.bits) (hy : y < 2 ^ a.bits) :
    (if x ≠ 0 ∧ (0xFFFF < x ∨ 0xFFFF < y) ∧ (if x = 0 then 0 else x * y % 2 ^ a.bits) / x ≠ y then maxSizeT a
      else if x = 0 then 0 else x * y % 2 ^ a.bits) = if x * y < 2 ^ a.bits then x * y else maxSizeT a := by
  by_cases hzero : x = 0
  · subst hzero
    simp
  · rw [if_neg hzero]
    by_cases hfits : x * y < 2 ^ a.bits
    · rw [if_pos hfits, Nat.mod_eq_of_lt hfits, Nat.mul_div_cancel_left y (Nat.pos_of_ne_zero hzero)]
      simp
    · have hbits : 2 ^ 32 ≤ 2 ^ a.bits := by cases a <;> decide
      have hlarge : 0xFFFF < x ∨ 0xFFFF < y := by
        by_contra hsmall
        have hprod : x * y ≤ 0xFFFF * 0xFFFF := Nat.mul_le_mul (by omega) (by omega)
        omega
      have hne : x * y % 2 ^ a.bits / x ≠ y := by
        intro heq
        have hle : x * (x * y % 2 ^ a.bits / x) ≤ x * y % 2 ^ a.bits := Nat.mul_div_le _ _
        have hmod : x * y % 2 ^ a.bits < 2 ^ a.bits := Nat.mod_lt _ (by omega)
        rw [heq] at hle
        omega
      rw [if_neg hfits, if_pos ⟨hzero, hlarge, hne⟩]

/-! ### Writes into a chunk -/

/-- Writes into a client's chunk leave the tags, the links and the records. -/
theorem Inv.fill (h : Inv a m row) (hp : Live a row p n) {M : Memory}
    (hM : ∀ x, ¬ (p + 2 * a.word ≤ x ∧ x < p + a.word + n) → M x = m.mem x) : Inv a { m with mem := M } row := by
  have hword := word_cases a
  have hapart : ∀ k q b, After row k q b → b.kind ≠ .gap → q = p ∨ q + b.size ≤ p ∨ p + n ≤ q := by
    intro k q b hb hgap
    obtain ⟨k', hk'⟩ | ⟨k', hk'⟩ := hp
    · obtain ⟨-, heq, -⟩ | hlow | hhigh := hb.apart hk'
      · exact Or.inl heq
      · exact Or.inr (Or.inl hlow)
      · exact Or.inr (Or.inr hhigh)
    · obtain ⟨-, heq, -⟩ | hlow | hhigh := hb.apart hk'
      · exact Or.inl heq
      · exact Or.inr (Or.inl hlow)
      · dsimp only at hhigh
        exact Or.inr (Or.inr (by omega))
  -- What is in a block that is no client's is as it was, but for the word that belongs to the chunk before.
  have hother : ∀ k q b, After row k q b → b.kind ≠ .gap → b.kind ≠ .client → b.kind ≠ .mapped →
      ∀ x, q + a.word ≤ x → x < q + b.size + a.word → M x = m.mem x := by
    intro k q b hb hgap hclient hmapped x hlow hhigh
    have hne : q ≠ p := by
      rintro rfl
      exact h.laid.not_live hb hgap hclient hmapped hp
    have hcase := hapart k q b hb hgap
    exact hM x (by omega)
  have houtside : m.gm + gmSize a ≤ p := by
    obtain ⟨k, hk⟩ | ⟨k, hk⟩ := hp
    · exact h.outside p _ ⟨k, hk⟩ nofun
    · exact h.outside p _ ⟨k, hk⟩ nofun
  have hlaid : Row a M row := by
    refine ⟨laid_iff.mpr fun k q b hb => ?_, h.laid.last, h.laid.bound⟩
    have htag := h.laid.tagged hb
    refine ⟨htag.before, htag.place, htag.size, htag.min, fun hgap => ?_, fun hfree => ?_⟩
    · have hwords := htag.word_le hgap
      have hcase := hapart k q b hb hgap
      rw [← htag.head hgap]
      exact load_congr fun x hlow hhigh => hM x (by omega)
    · have hwords := htag.word_le (by rw [hfree]; nofun)
      have hsame := hother k q b hb (by rw [hfree]; nofun) (by rw [hfree]; nofun) (by rw [hfree]; nofun)
      calc load M (q + b.size) a.word
        _ = load m.mem (q + b.size) a.word := load_congr fun x hlow hhigh => hsame x (by omega) hhigh
        _ = b.size := htag.foot hfree
  obtain ⟨seg, hrecorded, hsegments⟩ := h.segments
  have hrecorded' : Recorded a { m with mem := M } row seg := by
    refine hrecorded.congr rfl Iff.rfl (fun x _ hx => hM x (by omega)) fun q n' hq => ⟨hq, fun x hlow hhigh => ?_⟩
    obtain ⟨k, hk⟩ := hq
    exact hother k q _ hk nofun nofun nofun x (by omega) (by dsimp only; omega)
  obtain ⟨bins, hstocked, hbinned⟩ := h.stored
  have hsize : segOffset a ≤ gmSize a := Nat.le_add_right _ _
  have hheld : ∀ q t, bins.Holds q t → FreeIn row q t := fun q t hq => ((hstocked.holds q t).mp hq).1
  refine ⟨⟨hlaid, h.top, h.bare, h.least, h.outside, h.room, h.started, seg, hrecorded', hsegments⟩, bins, hstocked,
    hbinned.frame hstocked.ok (h.spread.mono hheld) rfl rfl rfl (fun z _ hz => hM z (by omega))
      fun q t hq z hlow hhigh => ?_⟩
  obtain ⟨k, hk⟩ := hheld q t hq
  exact hother k q _ hk nofun nofun nofun z (by omega) (by dsimp only; omega)

theorem memset_mem {value : BitVec 32} {x : Nat} (hn : n < 2 ^ a.bits) (hfits : mem + n ≤ 2 ^ a.bits) :
    (memset a m mem value n).mem x = if mem ≤ x ∧ x < mem + n then CString.toChar value else m.mem x := by
  have hstored := (CString.memset_spec (BitVec.ofNat a.bits mem) value (BitVec.ofNat a.bits n)
    fun x => m.mem x.toNat).2
  rw [BitVec.toNat_ofNat, Nat.mod_eq_of_lt hn] at hstored
  have hoffset : ∀ i, CString.offset (BitVec.ofNat a.bits mem) i = BitVec.ofNat a.bits (mem + i) := fun i =>
    (BitVec.ofNat_add mem i).symm
  rw [memset]
  dsimp only
  by_cases hx : x < 2 ^ a.bits
  · rw [if_pos hx]
    by_cases hin : mem ≤ x ∧ x < mem + n
    · obtain ⟨i, rfl⟩ := Nat.exists_eq_add_of_le hin.1
      rw [if_pos hin, ← hoffset]
      exact hstored.bytes i (by omega)
    · rw [if_neg hin]
      refine (hstored.frame _ fun i hi heq => hin ?_).trans ?_
      · rw [hoffset] at heq
        have heq := congrArg BitVec.toNat heq
        rw [BitVec.toNat_ofNat, BitVec.toNat_ofNat, Nat.mod_eq_of_lt hx, Nat.mod_eq_of_lt (by omega)] at heq
        omega
      · rw [BitVec.toNat_ofNat, Nat.mod_eq_of_lt hx]
  · rw [if_neg hx, if_neg (by omega)]

end Kiznix.Malloc
