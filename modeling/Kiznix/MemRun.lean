import Kiznix.MemStart

/-! Runs of the operations of `pmm.c` and `vmm.c`, in any order, from the state after `kernel_early`. -/

namespace Kiznix.Memory

open RadixTree

variable {b : Build} {pool held : List Nat} {s s' s₁ : Machine} {va f w n page : Nat} {entry : Nat → Nat}
  {vas taken : List Nat}

/-! ### Write accesses -/

/-- A write access to a page that is mapped, or that the page fault handler puts in. -/
def Accessed (b : Build) (va : Nat) (s s₁ : Machine) : Prop :=
  s.translate b va ≠ none ∧ s₁ = s ∨ ∃ w page, s.lastEntry b va = some w ∧ ¬ Present w ∧
    PagedIn b va page (handlerEntry b (pageAlignDown va) page) s s₁

/-- Why a write access stops. -/
def AccessFails (b : Build) (va : Nat) (s : Machine) (e : Fatal) : Prop :=
  s.translate b va = none ∧ (e = .outOfPhysicalMemory ∧ s.freeFrames b = [] ∨
    e ≠ .outOfPhysicalMemory ∧ ∀ w, s.lastEntry b va = some w → w &&& pageAllocated = 0)

theorem access_spec (h : MemInv b pool held s) (hva : b.Ordinary va) :
    wp (resolveWrite b (n + 2) va) s
      (fun f s' => ∃ s₁, MemInv b pool held s₁ ∧ Accessed b va s s₁ ∧ s₁.translate b va = some f ∧
        s' = s₁.cache va f)
      (AccessFails b va s) := by
  cases hf : s.translate b va with
  | some f =>
      rw [wp_of_ok (resolveWrite_some (n + 1) hf)]
      exact ⟨s, h, Or.inl ⟨by simp [hf], rfl⟩, hf, rfl⟩
  | none =>
      unfold wp
      rw [resolveWrite_none (n + 1) hf]
      show wp _ _ _ _
      rw [wp_bind]
      cases hlast : s.lastEntry b va with
      | none =>
          -- The handler reads an entry of a table that is not there.
          have hread : s.translate b (b.entryVa 1 (pageAlignDown va)) = none := by
            rw [entryVa_page, h.tree.translate_leafVa hva.1, ← Option.map_eq_none_iff, ← lastEntry_eq h.tree hva.1,
              hlast]
          rw [handler_eq, wp_bind]
          unfold wp
          rw [load_error hread]
          exact ⟨hf, Or.inr ⟨nofun, fun w hw => nomatch hlast ▸ hw⟩⟩
      | some w =>
          have hempty := (translate_eq_none_iff hlast).mp hf
          refine (handler_page h (resolveWrite_resolves n) hva.not_inWindow hlast hempty).mono ?_ ?_
          · rintro - s₁ ⟨-, h₁, page, hpaged⟩
            have hmapped : s₁.translate b va = some (page / pageSize) := by
              rw [translate_of_last (hpaged.last va rfl), entryFrame_handlerEntry _ hpaged.aligned]
            rw [wp_of_ok (resolveWrite_some n hmapped)]
            exact ⟨s₁, h₁, Or.inr ⟨w, page, hlast, hempty, hpaged⟩, hmapped, rfl⟩
          · rintro e (⟨rfl, hfree⟩ | ⟨rfl, hmark⟩)
            · exact ⟨hf, Or.inl ⟨rfl, hfree⟩⟩
            · refine ⟨hf, Or.inr ⟨nofun, fun w' hw' => ?_⟩⟩
              rw [hlast] at hw'
              rwa [← Option.some.inj hw']

/-! ### Steps -/

/-- The machine, and the frames that callers of `pmm_alloc_page` hold. -/
structure Callers where
  machine : Machine
  held : List Nat

/-- The operations, and what may happen between them. -/
inductive Op where
  | pmmAllocPage
  | pmmFreePage (page : Nat)
  | vmmMapPage (physicalAddress virtualAddress : Nat)
  | vmmUnmapPage (virtualAddress : Nat)
  | vmmAlloc (length : Nat)
  | vmmMap (physicalAddress length : Nat)
  | vmmUnmap (address length : Nat)
  /-- A write access, whose page fault is handled. -/
  | access (virtualAddress : Nat)
  /-- Any access to a page that is mapped: the processor may cache its translation. -/
  | fill (virtualAddress : Nat)
  /-- The word `i` of a frame is written by the caller that holds the frame. -/
  | write (f i w : Nat)

def Callers.run {α : Type} (c : Callers) (x : M α) : Except Fatal Callers :=
  (x c.machine).map fun r => { c with machine := r.2 }

/-- One step. Writes may fault to a depth below `n`. -/
def exec (b : Build) (n : Nat) (c : Callers) : Op → Except Fatal Callers
  | .pmmAllocPage => (Memory.pmmAllocPage b (resolveWrite b n) c.machine).map fun r =>
      ⟨r.2, r.1 / pageSize :: c.held⟩
  | .pmmFreePage page => (Memory.pmmFreePage b (resolveWrite b n) page c.machine).map fun r =>
      ⟨r.2, c.held.filter (· ≠ page / pageSize)⟩
  | .vmmMapPage pa va => c.run (Memory.vmmMapPage b (resolveWrite b n) pa va)
  | .vmmUnmapPage va => c.run (Memory.vmmUnmapPage b (resolveWrite b n) va)
  | .vmmAlloc length => c.run (Memory.vmmAlloc b (resolveWrite b n) length)
  | .vmmMap pa length => c.run (Memory.vmmMap b (resolveWrite b n) pa length)
  | .vmmUnmap address length => c.run (Memory.vmmUnmap b (resolveWrite b n) address length)
  | .access va => c.run (resolveWrite b n va)
  | .fill va => .ok { c with machine := ((c.machine.translate b va).map (c.machine.cache va)).getD c.machine }
  | .write f i w => .ok { c with machine := c.machine.write f i w }

/-- What callers keep to: only frames that they hold are freed and written, and no page of the page tables
or of the free-page stack is mapped, unmapped or accessed by them. -/
def Permitted (b : Build) (c : Callers) : Op → Prop
  | .pmmAllocPage => True
  | .pmmFreePage page => page % pageSize = 0 ∧ page / pageSize ∈ c.held
  | .vmmMapPage _ va => b.Ordinary va
  | .vmmUnmapPage va => b.Ordinary va
  | .vmmAlloc length => ∀ va ∈ regionPages b c.machine.nextAlloc (allocPages b length), b.Ordinary va
  | .vmmMap pa length => pa < 2 ^ b.physBits ∧
      ∀ va ∈ regionPages b c.machine.nextAlloc (mapSize b pa length / pageSize), b.Ordinary va
  | .vmmUnmap address length => ∀ va ∈ unmapPages b address length, b.Ordinary va
  | .access va => b.Ordinary va
  | .fill _ => True
  | .write f _ _ => f ∈ c.held

/-- The states that steps reach from `start`, each allowed where it is taken. -/
inductive Run (b : Build) (n : Nat) (allowed : Callers → Op → Prop) (start : Callers) : Callers → Prop where
  | start : Run b n allowed start start
  | step {c c' : Callers} {op : Op} (h : Run b n allowed start c) (hallowed : allowed c op)
      (hexec : exec b n c op = .ok c') : Run b n allowed start c'

theorem Run.invariant {allowed : Callers → Op → Prop} {start c : Callers} {P : Callers → Prop}
    (h : Run b n allowed start c) (hstart : P start)
    (hstep : ∀ c c' op, P c → allowed c op → exec b n c op = .ok c' → P c') : P c := by
  induction h with
  | start => exact hstart
  | step _ hallowed hexec ih => exact hstep _ _ _ ih hallowed hexec

theorem Run.mono {allowed allowed' : Callers → Op → Prop} {start c : Callers} (h : Run b n allowed start c)
    (hmono : ∀ c op, allowed c op → allowed' c op) : Run b n allowed' start c := by
  induction h with
  | start => exact .start
  | step _ hallowed hexec ih => exact .step ih (hmono _ _ hallowed) hexec

theorem map_ok {α : Type} {x : M α} {g : α × Machine → Callers} {c' : Callers}
    (h : (x s).map g = .ok c') : ∃ a s', x s = .ok (a, s') ∧ c' = g (a, s') := by
  cases hx : x s with
  | error e =>
      rw [hx] at h
      cases h
  | ok r =>
      rw [hx] at h
      exact ⟨r.1, r.2, rfl, (Except.ok.inj h).symm⟩

/-! ### The limit of the stack -/

/-- No page outside the window of the stack shares a page table with the first page that the stack does not
reach. -/
theorem Build.Ordinary.table_ne (hb : b ≠ .i386) (hva : b.Ordinary va) :
    (b.path (b.stackPage b.entries)).take (b.levels - 1) ≠ (b.path va).take (b.levels - 1) := by
  obtain ⟨htree, hinternal⟩ := hva
  rw [Build.Internal, not_or] at hinternal
  obtain ⟨-, hstack⟩ := hinternal
  cases b with
  | i386 => exact absurd rfl hb
  | pae =>
      simp only [Build.InTree, Build.InStack, Build.entries, Build.stackPage, Build.pmmStackVma,
        Build.pmmStackSize, pageSize, Build.path, Build.levels, List.take_succ_cons] at htree hstack ⊢
      intro heq
      injection heq with heq
      omega
  | x86_64 =>
      simp only [Build.InTree, Build.InStack, Build.entries, Build.stackPage, Build.pmmStackVma,
        Build.pmmStackSize, pageSize, Build.path, Build.levels, List.take_succ_cons] at htree hstack ⊢
      intro heq
      injection heq with hfirst heq
      omega

theorem not_inWindow_limit : ¬ b.InWindow (b.stackPage b.entries) :=
  Build.not_inWindow_stackPage b.entries_le_stackPages

theorem limit_page_ne (hva : b.Ordinary va) (hb : b ≠ .i386) :
    b.stackPage b.entries / pageSize ≠ va / pageSize :=
  fun hpage => hva.table_ne hb (by rw [path_of_page hpage])

theorem Written.limit (hw : Written b entry vas taken s s') (h : s.Tree b) (h' : s'.Tree b)
    (hvas : ∀ va ∈ vas, b.Ordinary va) (hlimit : Limit b s) : Limit b s' :=
  hlimit.keep h h' hw.count_le
    (fun hb => hw.others _ _ levels_sub_lt not_inWindow_limit fun va hva => (hvas va hva).table_ne hb)
    (fun hb => hw.last _ not_inWindow_limit fun va hva => limit_page_ne (hvas va hva) hb)

theorem Allocated.limit (ha : Allocated b page s s') (h : s.Tree b) (h' : s'.Tree b) (hlimit : Limit b s) :
    Limit b s' :=
  hlimit.keep h h' ha.taken.count_le (fun _ => ha.tableAt _ _ levels_sub_lt)
    (fun _ => ha.taken.last _ not_inWindow_limit)

theorem PagedIn.limit (hp : PagedIn b va page w s s') (hva : b.Ordinary va) (h : s.Tree b) (h' : s'.Tree b)
    (hlimit : Limit b s) : Limit b s' := by
  refine hlimit.keep h h' ?_ (fun _ => hp.tableAt _ _ levels_sub_lt) fun hb =>
    (hp.last_of_ne _ (limit_page_ne hva hb) not_inWindow_limit).imp_right fun ⟨hzero, hdropped⟩ =>
      ⟨hzero, Or.inr hdropped⟩
  rw [hp.count]
  exact Nat.sub_le _ _

/-! ### The invariant -/

/-- What every step keeps. -/
structure RunInv (b : Build) (pool : List Nat) (c : Callers) : Prop where
  inv : MemInv b pool c.held c.machine
  limit : Limit b c.machine
  accounted : Accounted b c.machine
  nextAlloc_lt : c.machine.nextAlloc < 2 ^ b.wordBits
  nextAlloc_mod : c.machine.nextAlloc % pageSize = 0

/-- The counter holds the size of the pool, and on i386 the stack has room for the pool. -/
structure PoolFits (b : Build) (pool : List Nat) : Prop where
  size : pageSize * pool.length < 2 ^ 64
  room : b = .i386 → pool.length ≤ b.stackPages * b.entries

/-- Off i386 `vmm_unmap_page` invalidates nothing: no page may be unmapped that is cached, be it for a caller
or, with the first slot of a page of the stack, by `pmm_alloc_page`, which has just read the slot. -/
def Invalidated (b : Build) (c : Callers) : Op → Prop
  | .pmmAllocPage => Quiet b 1 c.machine
  | .vmmMapPage _ va => Quiet b (missing b c.machine va (b.levels - 1)) c.machine
  | .vmmUnmapPage va => Quiet b (if c.machine.tableAt b va (b.levels - 1) = none then 1 else 0) c.machine ∧
      (b = .i386 ∨ Uncached c.machine va)
  | .vmmAlloc length => Quiet b
      (missingTables b c.machine (regionPages b c.machine.nextAlloc (allocPages b length))).card c.machine
  | .vmmMap pa length => Quiet b (missingTables b c.machine
      (regionPages b c.machine.nextAlloc (mapSize b pa length / pageSize))).card c.machine
  | .vmmUnmap address length => Quiet b (missingTables b c.machine (unmapPages b address length)).card c.machine ∧
      (b = .i386 ∨ ∀ va ∈ unmapPages b address length, Uncached c.machine va)
  | .access va => c.machine.translate b va = none → Quiet b 1 c.machine
  | .pmmFreePage _ | .fill _ | .write _ _ _ => True

theorem regionEnd_aligned {p : Nat} (hp : p < 2 ^ b.wordBits) (hmod : p % pageSize = 0) (m : Nat) :
    regionEnd b p m < 2 ^ b.wordBits ∧ regionEnd b p m % pageSize = 0 := by
  rw [regionEnd_eq hp]
  refine ⟨Nat.mod_lt _ (Nat.two_pow_pos _), ?_⟩
  cases b <;> simp only [Build.wordBits, pageSize] at * <;> omega

variable {c c' : Callers} {op : Op}

/-- What a step keeps: the invariant, and the coherence of the translations. -/
def Keeps (b : Build) (pool : List Nat) (c : Callers) (op : Op) (c' : Callers) : Prop :=
  RunInv b pool c' ∧ (Invalidated b c op → Coherent b c.machine → Coherent b c'.machine)

section Step

variable (h : RunInv b pool c)

include h

theorem RunInv.written (hinv : MemInv b pool c.held s') (hw : Written b entry vas taken c.machine s')
    (hvas : ∀ va ∈ vas, b.Ordinary va)
    (hnext : s'.nextAlloc < 2 ^ b.wordBits ∧ s'.nextAlloc % pageSize = 0) :
    RunInv b pool { c with machine := s' } :=
  ⟨hinv, hw.limit h.inv.tree hinv.tree hvas h.limit, hw.accounted h.accounted, hnext.1, hnext.2⟩

theorem RunInv.next (hnext : s'.nextAlloc = c.machine.nextAlloc) :
    s'.nextAlloc < 2 ^ b.wordBits ∧ s'.nextAlloc % pageSize = 0 := by
  rw [hnext]
  exact ⟨h.nextAlloc_lt, h.nextAlloc_mod⟩

theorem RunInv.next_region {m : Nat} (hnext : s'.nextAlloc = regionEnd b c.machine.nextAlloc m) :
    s'.nextAlloc < 2 ^ b.wordBits ∧ s'.nextAlloc % pageSize = 0 := by
  rw [hnext]
  exact regionEnd_aligned h.nextAlloc_lt h.nextAlloc_mod m

theorem step_pmmAllocPage (hexec : exec b (n + 2) c .pmmAllocPage = .ok c') :
    Keeps b pool c .pmmAllocPage c' := by
  obtain ⟨page, s', hrun, rfl⟩ := map_ok hexec
  obtain ⟨hinv, ha⟩ := (pmmAllocPage_spec h.inv (resolveWrite_resolves (n + 1))).ok hrun
  refine ⟨⟨{ hinv with held_out := fun f hf => ?_, held_data := fun f hf => ?_ },
    ha.limit h.inv.tree hinv.tree h.limit, ha.taken.accounted h.accounted,
    (h.next ha.taken.nextAlloc).1, (h.next ha.taken.nextAlloc).2⟩, ha.taken.coherent⟩
  · rcases List.mem_cons.mp hf with rfl | hf
    · rw [ha.taken.out]
      exact List.mem_cons_self
    · exact hinv.held_out f hf
  · rcases List.mem_cons.mp hf with rfl | hf
    · exact ha.not_table h.inv
    · exact hinv.held_data f hf

theorem RunInv.free_spec (hpool : PoolFits b pool) (hpage : page % pageSize = 0) (hheld : page / pageSize ∈ c.held) :
    wp (pmmFreePage b (resolveWrite b (n + 1)) page) c.machine
      (fun _ s' => MemInv b pool (c.held.filter (· ≠ page / pageSize)) s' ∧ Limit b s' ∧
        ∃ taken s₁, Freed b pool c.held page taken c.machine s₁ s') (FreeFails b c.machine) :=
  pmmFreePage_spec h.inv h.limit hpool.room hpage hheld fun f hf => by simpa using hf

theorem step_pmmFreePage (hpool : PoolFits b pool) (hpage : page % pageSize = 0)
    (hheld : page / pageSize ∈ c.held) (hexec : exec b (n + 2) c (.pmmFreePage page) = .ok c') :
    Keeps b pool c (.pmmFreePage page) c' := by
  obtain ⟨u, s', hrun, rfl⟩ := map_ok hexec
  obtain ⟨hinv, hlimit, taken, s₁, hfreed⟩ := (h.free_spec hpool hpage hheld).ok hrun
  exact ⟨⟨hinv, hlimit, hfreed.accounted hheld hpool.size h.accounted, (h.next hfreed.nextAlloc).1,
    (h.next hfreed.nextAlloc).2⟩, fun _ => hfreed.coherent⟩

theorem step_vmmMapPage {pa : Nat} (hva : b.Ordinary va)
    (hexec : exec b (n + 2) c (.vmmMapPage pa va) = .ok c') : Keeps b pool c (.vmmMapPage pa va) c' := by
  obtain ⟨r, s', hrun, rfl⟩ := map_ok hexec
  obtain ⟨-, hinv, taken, hmapped⟩ :=
    (vmmMapPage_spec h.inv (resolveWrite_resolves (n + 1)) hva.1 hva.not_inWindow).ok hrun
  refine ⟨h.written hinv hmapped.written_const (fun va' hva' => ?_) (h.next hmapped.nextAlloc), fun hquiet => ?_⟩
  · rwa [List.mem_singleton.mp hva']
  · exact hmapped.coherent (hmapped.length ▸ hquiet)

theorem step_vmmUnmapPage (hva : b.Ordinary va) (hexec : exec b (n + 2) c (.vmmUnmapPage va) = .ok c') :
    Keeps b pool c (.vmmUnmapPage va) c' := by
  obtain ⟨r, s', hrun, rfl⟩ := map_ok hexec
  obtain ⟨hinv, hnext, taken, hw, hlength, hcoherent⟩ := (vmmUnmapPage_spec h.inv hva).ok hrun
  refine ⟨h.written hinv hw (fun va' hva' => ?_) (h.next hnext), fun ⟨hquiet, huncached⟩ => ?_⟩
  · rwa [List.mem_singleton.mp hva']
  · exact hcoherent (hlength ▸ hquiet) huncached

theorem step_vmmAlloc {length : Nat}
    (hvas : ∀ va ∈ regionPages b c.machine.nextAlloc (allocPages b length), b.Ordinary va)
    (hexec : exec b (n + 2) c (.vmmAlloc length) = .ok c') : Keeps b pool c (.vmmAlloc length) c' := by
  obtain ⟨r, s', hrun, rfl⟩ := map_ok hexec
  obtain ⟨-, ⟨hinv, taken, hw, -⟩, hnext, hcoherent⟩ := (vmmAlloc_spec length h.inv h.nextAlloc_lt hvas).ok hrun
  exact ⟨h.written hinv hw hvas (h.next_region hnext), hcoherent⟩

/-- A region that leaves the windows out does not cover the whole address space. -/
theorem RunInv.mapSize_lt {pa length : Nat}
    (hvas : ∀ va ∈ regionPages b c.machine.nextAlloc (mapSize b pa length / pageSize), b.Ordinary va) :
    mapSize b pa length < 2 ^ b.wordBits := by
  have hlt := h.nextAlloc_lt
  have hmod := h.nextAlloc_mod
  by_contra hle
  refine (hvas b.pmmStackVma ((mem_regionPages hlt).mpr
    ⟨(b.pmmStackVma + 2 ^ b.wordBits - c.machine.nextAlloc) % 2 ^ b.wordBits / pageSize, ?_, ?_⟩)).2 (Or.inr ?_)
  · cases b <;> simp only [Build.wordBits, Build.pmmStackVma, pageSize] at * <;> omega
  · cases b <;> simp only [Build.wordBits, Build.pmmStackVma, pageSize] at * <;> omega
  · cases b <;> simp [Build.InStack, Build.pmmStackVma, Build.pmmStackSize]

theorem step_vmmMap {pa length : Nat} (hpa : pa < 2 ^ b.physBits)
    (hvas : ∀ va ∈ regionPages b c.machine.nextAlloc (mapSize b pa length / pageSize), b.Ordinary va)
    (hexec : exec b (n + 2) c (.vmmMap pa length) = .ok c') : Keeps b pool c (.vmmMap pa length) c' := by
  obtain ⟨r, s', hrun, rfl⟩ := map_ok hexec
  obtain ⟨hinv, ⟨s₁, ⟨h₁, taken, hw, -⟩, entry, vas, hmapped, hsub⟩, hnext, hcoherent⟩ :=
    (vmmMap_spec pa length h.inv hpa h.nextAlloc_lt h.nextAlloc_mod (h.mapSize_lt hvas) hvas).ok hrun
  have hlimit₁ := hw.limit h.inv.tree h₁.tree hvas h.limit
  have hnext' := h.next_region hnext
  exact ⟨⟨hinv, hmapped.limit h₁.tree hinv.tree (fun va hva => hvas va (hsub va hva)) hlimit₁,
    hmapped.accounted (hw.accounted h.accounted), hnext'.1, hnext'.2⟩, hcoherent⟩

theorem step_vmmUnmap {address length : Nat} (hvas : ∀ va ∈ unmapPages b address length, b.Ordinary va)
    (hexec : exec b (n + 2) c (.vmmUnmap address length) = .ok c') :
    Keeps b pool c (.vmmUnmap address length) c' := by
  obtain ⟨r, s', hrun, rfl⟩ := map_ok hexec
  obtain ⟨-, ⟨hinv, taken, hw, -⟩, hnext, hcoherent⟩ := (vmmUnmap_spec address length h.inv hvas).ok hrun
  exact ⟨h.written hinv hw hvas (h.next hnext), fun ⟨hquiet, huncached⟩ => hcoherent hquiet huncached⟩

theorem step_access (hva : b.Ordinary va) (hexec : exec b (n + 2) c (.access va) = .ok c') :
    Keeps b pool c (.access va) c' := by
  obtain ⟨f, s', hrun, rfl⟩ := map_ok hexec
  obtain ⟨s₁, h₁, haccessed, hf, rfl⟩ := (access_spec h.inv hva).ok hrun
  rcases haccessed with ⟨-, rfl⟩ | ⟨w, page, hlast, hempty, hpaged⟩
  · exact ⟨⟨MemInv.cache h.inv, h.limit, h.accounted, h.nextAlloc_lt, h.nextAlloc_mod⟩, fun _ hc => hc.cache hf⟩
  · have hnext := h.next hpaged.nextAlloc
    exact ⟨⟨MemInv.cache h₁, hpaged.limit hva h.inv.tree h₁.tree h.limit, hpaged.accounted h.accounted, hnext.1,
      hnext.2⟩, fun hquiet hc =>
      (hpaged.coherent (hquiet ((translate_eq_none_iff hlast).mpr hempty)) hc).cache hf⟩

theorem step_fill : Keeps b pool c (.fill va)
    { c with machine := ((c.machine.translate b va).map (c.machine.cache va)).getD c.machine } := by
  cases hf : c.machine.translate b va with
  | none => exact ⟨h, fun _ hc => hc⟩
  | some f =>
      exact ⟨⟨MemInv.cache h.inv, h.limit, h.accounted, h.nextAlloc_lt, h.nextAlloc_mod⟩, fun _ hc => hc.cache hf⟩

theorem step_write {f i w : Nat} (hf : f ∈ c.held) : Keeps b pool c (.write f i w)
    { c with machine := c.machine.write f i w } := by
  obtain ⟨hinv, hdata⟩ := h.inv.data_change (c.machine.write f i w) rfl fun g hg => by
    refine funext fun j => Machine.write_of_ne ?_
    rintro ⟨rfl, -⟩
    exact hg.elim (h.inv.held_data g hf) fun hfree => h.inv.free_not_held hfree hf
  refine ⟨⟨hinv, ?_, ?_, h.nextAlloc_lt, h.nextAlloc_mod⟩, fun _ => hdata.coherent fun e he => Or.inl he⟩
  · exact h.limit.keep h.inv.tree hinv.tree le_rfl (fun _ => hdata.tableAt _ _ levels_sub_lt)
      fun _ => Or.inl (hdata.last _)
  · rw [Accounted, hdata.free]
    exact h.accounted

/-- What any step keeps. -/
theorem RunInv.step (hpool : PoolFits b pool) (hop : Permitted b c op) (hexec : exec b (n + 2) c op = .ok c') :
    Keeps b pool c op c' := by
  cases op with
  | pmmAllocPage => exact step_pmmAllocPage h hexec
  | pmmFreePage page => exact step_pmmFreePage h hpool hop.1 hop.2 hexec
  | vmmMapPage pa va => exact step_vmmMapPage h hop hexec
  | vmmUnmapPage va => exact step_vmmUnmapPage h hop hexec
  | vmmAlloc length => exact step_vmmAlloc h hop hexec
  | vmmMap pa length => exact step_vmmMap h hop.1 hop.2 hexec
  | vmmUnmap address length => exact step_vmmUnmap h hop hexec
  | access va => exact step_access h hop hexec
  | fill va =>
      obtain rfl := Except.ok.inj hexec
      exact step_fill h
  | write f i w =>
      obtain rfl := Except.ok.inj hexec
      exact step_write h hop

end Step

/-! ### Runs from the start -/

variable {image : KernelImage b} {map : List MemoryMapEntry} {allowed : Callers → Op → Prop}

/-- At the start nothing is held. -/
def Callers.start (s : Machine) : Callers := ⟨s, []⟩

theorem StartState.runInv (h : StartState b image map s) : RunInv b (image.pool map) (Callers.start s) := by
  have hnext : b.kernelHeapBegin < 2 ^ b.wordBits ∧ b.kernelHeapBegin % pageSize = 0 := by
    cases b <;> decide
  rw [← h.nextAlloc] at hnext
  refine ⟨h.inv, Or.inr ⟨?_, fun w hw => ?_⟩, h.accounted, hnext.1, hnext.2⟩
  · show s.stackCount b ≤ _
    rw [h.stackCount]
    exact Nat.zero_le _
  · have hkernel : ¬ b.InKernel (b.stackPage b.entries) := by
      cases b <;> decide
    have hlast := h.last _ (Build.inTree_stackPage b.entries_le_stackPages) not_inWindow_limit
    rw [if_neg hkernel] at hlast
    exact nomatch hlast.symm.trans hw

theorem pool_fits (hbase : LowMap map) (hdisjoint : DisjointMap map) : PoolFits b (image.pool map) := by
  refine ⟨bootFrames_length hbase hdisjoint, fun hb => ?_⟩
  subst hb
  have hsub : (image.pool map).toFinset ⊆ Finset.range (2 ^ 20) := by
    intro f hf
    have hhigh := (bootFrames_bounds hbase (List.mem_toFinset.mp hf)).2.2
    rw [pageSize, Build.physBits] at hhigh
    exact Finset.mem_range.mpr (by omega)
  have hnodup : (image.pool map).Nodup := bootFrames_nodup hbase hdisjoint
  have hcard := Finset.card_le_card hsub
  rwa [List.toFinset_card_of_nodup hnodup, Finset.card_range] at hcard

theorem Run.runInv (hbase : LowMap map) (hdisjoint : DisjointMap map) (hstart : Started b image map n s)
    (hallowed : ∀ c op, allowed c op → Permitted b c op) (h : Run b (n + 2) allowed (Callers.start s) c) :
    RunInv b (image.pool map) c :=
  h.invariant (started_state hbase hdisjoint hstart).runInv fun _ _ op hinv hop hexec =>
    (hinv.step (pool_fits hbase hdisjoint) (hallowed _ op hop) hexec).1

/-- `pmm_alloc_page` returns as long as a frame is free. -/
theorem MemInv.alloc_ok (h : MemInv b pool held s) (hfree : s.freeFrames b ≠ []) :
    ∃ page s', pmmAllocPage b (resolveWrite b (n + 2)) s = .ok (page, s') ∧
      MemInv b pool held s' ∧ Allocated b page s s' := by
  have hspec := (pmmAllocPage_spec h (resolveWrite_resolves (n + 1))).mono (fun _ _ hq => hq)
    fun e he => hfree he.2
  exact hspec.returns

theorem RunInv.exec_alloc (h : RunInv b pool c) (hfree : c.machine.freeFrames b ≠ []) :
    ∃ page s', exec b (n + 2) c .pmmAllocPage = .ok ⟨s', page / pageSize :: c.held⟩ ∧
      MemInv b pool c.held s' ∧ Allocated b page c.machine s' := by
  obtain ⟨page, s', hrun, hspec⟩ := h.inv.alloc_ok (n := n) hfree
  exact ⟨page, s', by rw [exec, hrun]; rfl, hspec⟩

/-! ### A small machine -/

def smallImage (b : Build) : KernelImage b :=
  ⟨272, 0x120000, by decide, by cases b <;> decide, by decide⟩

/-- One megabyte of memory. -/
def smallMap : List MemoryMapEntry := [⟨0x400000, 0x100000, fourMebibytes_lt, mebibyte_lt⟩]

theorem smallMap_low : LowMap smallMap := by
  intro e he
  rw [List.mem_singleton.mp he]
  decide

theorem smallMap_disjoint : DisjointMap smallMap := List.pairwise_singleton _ _

theorem smallMap_pool : 1024 ∈ (smallImage b).pool smallMap := by
  cases b <;> decide

theorem smallMap_length : ((smallImage b).pool smallMap).length = 256 := by
  have hranges : bootRanges b (kernelEndOf b (smallImage b).imageEnd) smallMap = [(0x400000, 0x500000)] := by
    cases b <;> decide
  rw [KernelImage.pool, bootFrames, hranges, List.flatMap_singleton, framesOf, List.length_map, List.length_range]
  rfl

theorem started_small (b : Build) (n : Nat) : ∃ s, Started b (smallImage b) smallMap n s :=
  exists_started smallMap_low smallMap_disjoint bootMachine_atKernelEarly (List.ne_nil_of_mem smallMap_pool) n

end Kiznix.Memory
