import Kiznix.MallocInvariant

/-! Operations on the bins leave the row as it is, and writes to chunks that are in no bin leave the bins as they
are. -/

namespace Kiznix.Malloc

open ByteMemory BlockRow
open Switch (Arch)

variable {a : Arch} {m m' s s' : State} {row : List (Block Kind)} {n p q r t : Nat} {F : Nat → Nat → Prop}
  {bins : Bins}

/-- A free chunk of the row. -/
abbrev FreeIn (row : List (Block Kind)) (q n : Nat) : Prop := At row q ⟨.free, n⟩

/-! ### Links of free chunks -/

/-- A step that writes to the bins and to links of free chunks only. -/
structure Idle (a : Arch) (row : List (Block Kind)) (s s' : State) : Prop where
  mem : ∀ z, s.gm + segOffset a ≤ z → Solid a row z → s'.mem z = s.mem z
  same : SameTop s s'

theorem Idle.of_mem (hmem : s'.mem = s.mem) (hsame : SameTop s s') : Idle a row s s' :=
  ⟨fun _ _ _ => by rw [hmem], hsame⟩

theorem Idle.refl : Idle a row s s := .of_mem rfl .refl

theorem Idle.trans {s'' : State} (h : Idle a row s s') (h' : Idle a row s' s'') : Idle a row s s'' where
  mem z hlow hz := (h'.mem z (h.same.gm ▸ hlow) hz).trans (h.mem z hlow hz)
  same := h.same.trans h'.same

/-- `_gm_` is before all chunks, so that its bytes are no links of them. -/
theorem Layout.solid (h : Layout a s row) {z : Nat} (hz : z < s.gm + gmSize a) : Solid a row z := fun q n hq =>
  Or.inl (by
    have hout := h.outside q _ hq nofun
    omega)

/-- An idle step keeps the row. -/
theorem Layout.idle (h : Layout a s row) (hidle : Idle a row s s') :
    Layout a s' row ∧ Moves a row row s.mem s'.mem := by
  have hsize : segOffset a ≤ gmSize a := Nat.le_add_right _ _
  have hmoves : Moves a row row s.mem s'.mem := h.laid.idle h.outside fun x hx hsolid => hidle.mem x (by omega) hsolid
  obtain ⟨htop, htopsize, hleast, hgm⟩ := hidle.same
  obtain ⟨seg, hrecorded, hsegments⟩ := h.segments
  refine ⟨⟨hmoves.target, ?_, ?_, ?_, ?_, ?_, ?_, seg, ?_, ?_⟩, hmoves⟩
  · rw [htop, htopsize]
    exact h.top
  · rw [htop, htopsize]
    exact h.bare
  · rw [hleast]
    exact h.least
  · rw [hgm]
    exact h.outside
  · rw [hgm]
    exact h.room
  · rw [htop, hleast]
    exact h.started
  · exact hrecorded.congr hgm (by rw [htop]) (fun x hlow hhigh => hidle.mem x hlow (h.solid hhigh)) hmoves.records
  · rw [htop, htopsize]
    exact hsegments

theorem Layout.spread (h : Layout a m row) : Spread a m (FreeIn row) where
  min q n hq := by
    obtain ⟨k, hk⟩ := hq
    exact (h.laid.tagged hk).min nofun nofun
  least q n hq := h.least q _ hq nofun
  outside q n hq := h.outside q _ hq nofun
  bound q n hq := by
    obtain ⟨k, hk⟩ := hq
    have hbounds := hk.bounds
    have hbound := h.laid.bound
    calc q + n ≤ 0 + total row := hbounds.2
      _ = total row := Nat.zero_add _
      _ ≤ 2 ^ a.bits := hbound
  apart q n q' n' hq hq' := by
    obtain ⟨k, hk⟩ := hq
    obtain ⟨k', hk'⟩ := hq'
    obtain ⟨-, rfl, heq⟩ | hapart := hk.apart hk'
    · exact Or.inl ⟨rfl, congrArg Block.size heq⟩
    · exact Or.inr hapart

/-- What is done to the bins is idle. -/
theorem Layout.idle_of_step (h : Layout a m row) (hstep : BinStep a (FreeIn row) m m') : Idle a row m m' where
  mem z hlow hsolid := hstep.mem z fun x f hx hz => by
    obtain hgm | ⟨n, hn, hin⟩ := h.spread.link_in hx hz
    · omega
    · have hout := hsolid x n hn
      omega
  same := by
    rw [hstep.rest]
    exact ⟨rfl, rfl, rfl, rfl⟩

theorem Layout.free_head (h : Layout a m row) (hq : FreeIn row q n) : m.head a q = n + 1 := by
  obtain ⟨k, hk⟩ := hq
  exact (h.laid.tagged hk).head nofun

theorem Layout.free_chunk (h : Layout a m row) (hq : FreeIn row q n) :
    q ≠ 0 ∧ n ≠ 0 ∧ n % 8 = 0 ∧ n + 8 ≤ 2 ^ a.bits := by
  obtain ⟨k, hk⟩ := hq
  have htag := h.laid.tagged hk
  have hplace := (htag.place nofun).1
  exact ⟨by omega, ne_of_gt (htag.size nofun).1, htag.multiple nofun, h.laid.size_lt hk nofun⟩

theorem Layout.free_size (h : Layout a m row) (hq : FreeIn row q n) : chunksize (m.head a q) = n := by
  rw [h.free_head hq]
  exact chunksize_add (h.free_chunk hq).2.2.1 (by decide)

theorem Layout.filed (h : Layout a m row) (hstocked : Stocked bins m.dv m.dvsize F) (hbinned : Binned a m bins)
    (hF : ∀ q n, F q n → FreeIn row q n) : Filed a m bins (FreeIn row) where
  binned := hbinned
  ok := hstocked.ok
  spread := h.spread
  held q n hq := hF q n ((hstocked.holds q n).mp hq).1

/-! ### The bins with their links -/

theorem Stored.congr {F' : Nat → Nat → Prop} (h : Stored a m F) (hF : ∀ q n, F' q n ↔ F q n) : Stored a m F' := by
  obtain ⟨bins, hstocked, hbinned⟩ := h
  exact ⟨bins, hstocked.congr hF, hbinned⟩

theorem BinStep.stocked (h : BinStep a (FreeIn row) m m') (hstocked : Stocked bins m.dv m.dvsize F) :
    Stocked bins m'.dv m'.dvsize F := by
  rw [h.rest]
  exact hstocked

/-- A free chunk leaves its bin. -/
theorem Layout.unlinked (h : Layout a m row) (hstored : Stored a m F) (hF : ∀ q n, F q n → FreeIn row q n)
    (hp : F p n) (hdv : p ≠ m.dv) : ∃ m', unlinkChunk a m p n = some m' ∧ BinStep a (FreeIn row) m m' ∧
      Stored a m' fun q t => F q t ∧ q ≠ p := by
  obtain ⟨bins, hstocked, hbinned⟩ := hstored
  obtain ⟨m', heq, hfiled, hstep⟩ :=
    unlinkChunk_spec (h.filed hstocked hbinned hF) ((hstocked.holds p n).mpr ⟨hp, hdv⟩)
  exact ⟨m', heq, hstep, _, hstep.stocked (hstocked.unlinkChunk hp hdv), hfiled.binned⟩

/-- A free chunk goes to its bin. -/
theorem Layout.inserted (h : Layout a m row) (hstored : Stored a m F) (hF : ∀ q n, F q n → FreeIn row q n)
    (hp : FreeIn row p n) (hnew : ∀ t, ¬ F p t) : ∃ m', insertChunk a m p n = some m' ∧
      BinStep a (FreeIn row) m m' ∧ Stored a m' fun q t => F q t ∨ (q = p ∧ t = n) := by
  obtain ⟨bins, hstocked, hbinned⟩ := hstored
  obtain ⟨hp₀, hn₀, hmod, -⟩ := h.free_chunk hp
  have hfiled := h.filed hstocked hbinned hF
  obtain ⟨m', heq, hfiled', hstep⟩ := insertChunk_spec hfiled hmod hp (hstocked.not_holds hnew) fun q t hq =>
    h.free_size (hfiled.held q t hq)
  exact ⟨m', heq, hstep, _, hstep.stocked (hstocked.insertChunk hnew hp₀ hn₀ hmod), hfiled'.binned⟩

/-- The old designated victim goes to a small bin, and a free chunk takes its place. -/
theorem Layout.replacedDv (h : Layout a m row) (hstored : Stored a m F) (hF : ∀ q n, F q n → FreeIn row q n)
    (hsmall : isSmall m.dvsize = true) (hp : FreeIn row p n) (hnew : ∀ t, ¬ F p t) :
    ∃ m', replaceDv a m p n = some m' ∧ Idle a row m m' ∧ Stored a m' fun q t => F q t ∨ (q = p ∧ t = n) := by
  obtain ⟨bins, hstocked, hbinned⟩ := hstored
  obtain ⟨hp₀, hn₀, hmod, -⟩ := h.free_chunk hp
  have hnext := hstocked.replaceDv hsmall hnew hp₀ hn₀ hmod
  rw [replaceDv]
  by_cases hzero : m.dvsize = 0
  · rw [if_neg (not_not.mpr hzero)]
    rw [if_neg (not_not.mpr hzero)] at hnext
    exact ⟨_, rfl, .of_mem rfl ⟨rfl, rfl, rfl, rfl⟩, bins, hnext, ⟨hbinned.smallmap, hbinned.treemap, hbinned.linked⟩⟩
  · rw [if_pos hzero]
    rw [if_pos hzero] at hnext
    have hdv := hstocked.victim hzero
    have hfiled := h.filed hstocked hbinned hF
    have hout : ∀ t, ¬ bins.Holds m.dv t := fun t ht => ((hstocked.holds _ _).mp ht).2 rfl
    obtain ⟨m', heq, hfiled', hstep⟩ :=
      insertSmallChunk_spec hfiled hsmall (hstocked.chunk _ _ hdv).2.2 (hF _ _ hdv) hout
    rw [heq]
    exact ⟨_, rfl, (h.idle_of_step hstep).trans (.of_mem rfl ⟨rfl, rfl, rfl, rfl⟩), _, hnext,
      ⟨hfiled'.binned.smallmap, hfiled'.binned.treemap, hfiled'.binned.linked⟩⟩

/-! ### Writes around the links -/

/-- The fields of the bins are the same. -/
theorem Binned.congr (h : Binned a s bins) (hok : bins.Ok) (hgm : s'.gm = s.gm) (hsmall : s'.smallmap = s.smallmap)
    (htree : s'.treemap = s.treemap) (hget : ∀ x f, Linkable a s.gm bins.Holds x f → s'.get a x f = s.get a x f) :
    Binned a s' bins where
  smallmap := hsmall.trans h.smallmap
  treemap := htree.trans h.treemap
  linked := by
    rw [hgm]
    exact h.linked.congr hok hget

theorem Binned.frame (h : Binned a s bins) (hok : bins.Ok) (hspread : Spread a s bins.Holds) (hgm : s'.gm = s.gm)
    (hsmall : s'.smallmap = s.smallmap) (htree : s'.treemap = s.treemap)
    (hbins : ∀ z, s.gm ≤ z → z < s.gm + segOffset a → s'.mem z = s.mem z)
    (hheld : ∀ q n, bins.Holds q n → ∀ z, q + 2 * a.word ≤ z → z < q + n → s'.mem z = s.mem z) : Binned a s' bins := by
  refine h.congr hok hgm hsmall htree fun x f hx => load_congr fun z hlow hhigh => ?_
  obtain hin | ⟨n, hn, hin⟩ := hspread.link_in hx ⟨hlow, hhigh⟩
  · exact hbins z (by omega) hin.2
  · exact hheld x n hn z hin.1 hin.2

/-- Writes to memory behind the row. -/
theorem Layout.binned_below (h : Layout a s row) (hstocked : Stocked bins s.dv s.dvsize F)
    (hF : ∀ q n, F q n → FreeIn row q n) (hbinned : Binned a s bins) (hmem : ∀ x < total row, s'.mem x = s.mem x)
    (hgm : s'.gm = s.gm) (hsmall : s'.smallmap = s.smallmap) (htree : s'.treemap = s.treemap) : Binned a s' bins := by
  have hroom := h.room
  have hsize : segOffset a ≤ gmSize a := Nat.le_add_right _ _
  have hheld : ∀ q n, bins.Holds q n → FreeIn row q n := fun q n hq => hF q n ((hstocked.holds q n).mp hq).1
  refine hbinned.frame hstocked.ok (h.spread.mono hheld) hgm hsmall htree (fun z _ hz => hmem z (by omega))
    fun q n hq z _ hhigh => ?_
  obtain ⟨k, hk⟩ := hheld q n hq
  have hbounds := hk.bounds
  exact hmem z (by dsimp only at hbounds; omega)

section Replace

variable {pre mid post : List (Block Kind)}

/-- Writes to chunks that are in no bin. -/
theorem Layout.binned_around (h : Layout a s (pre ++ (mid ++ post))) (hmid : ∀ c ∈ mid, c.kind ≠ .gap) (hne : mid ≠ [])
    (hstocked : Stocked bins s.dv s.dvsize F) (hF : ∀ q n, F q n → FreeIn (pre ++ (mid ++ post)) q n)
    (hout : ∀ k q n, Placed (lastKind .gap pre) (total pre) mid k q ⟨.free, n⟩ → F q n → q = s.dv)
    (hbinned : Binned a s bins) (hmem : SameAround a pre mid s.mem s'.mem) (hgm : s'.gm = s.gm)
    (hsmall : s'.smallmap = s.smallmap) (htree : s'.treemap = s.treemap) : Binned a s' bins := by
  have hfirst := h.outside_first hmid hne
  have hsize : segOffset a ≤ gmSize a := Nat.le_add_right _ _
  have hheld : ∀ q n, bins.Holds q n → FreeIn (pre ++ (mid ++ post)) q n :=
    fun q n hq => hF q n ((hstocked.holds q n).mp hq).1
  refine hbinned.frame hstocked.ok (h.spread.mono hheld) hgm hsmall htree (fun z _ hz => hmem z (by omega))
    fun q n hq z hlow hhigh => ?_
  obtain ⟨hFq, hdv⟩ := (hstocked.holds q n).mp hq
  obtain ⟨k, haround⟩ | ⟨k, hplaced⟩ := at_around.mp (hF q n hFq)
  · have hapart := around_apart haround
    exact hmem z (by omega)
  · exact absurd (hout k q n hplaced hFq) hdv

end Replace

end Kiznix.Malloc
