import Kiznix.MemHeap

/-! Runs of `vmm_alloc`: what its callers get, and that a request too large for the heap is not refused. -/

namespace Kiznix.Memory

variable {b : Build} {pool : List Nat} {s s' s₁ : Machine} {n r length : Nat} {image : KernelImage b}
  {map : List MemoryMapEntry}

/-- A call of `vmm_alloc` that returned. -/
structure AllocCall where
  length : Nat
  result : Nat
  before : Machine
  after : Machine

/-- Calls of `vmm_alloc` one after the other, the last one first. -/
inductive AllocRun (b : Build) (n : Nat) (start : Machine) : List AllocCall → Machine → Prop where
  | start : AllocRun b n start [] start
  | step {calls : List AllocCall} {s s' : Machine} {length r : Nat} (h : AllocRun b n start calls s)
      (hlength : length < 2 ^ b.wordBits) (hcall : vmmAlloc b (resolveWrite b n) length s = .ok (r, s')) :
      AllocRun b n start (⟨length, r, s, s'⟩ :: calls) s'

namespace AllocCall

variable (b) (call : AllocCall)

def Contains (address : Nat) : Prop := call.result ≤ address ∧ address < call.result + call.length

/-- The region is the caller's: it lies in the heap and is marked. -/
structure Reserved : Prop where
  aligned : call.result % pageSize = 0
  begin_le : b.kernelHeapBegin ≤ call.result
  le_end : call.result + call.length ≤ b.kernelHeapEnd
  marked : ∀ address, call.Contains address → call.after.lastEntry b address = some pageAllocated

/-- The documented contract: the region is reserved, or `NULL` is returned; and it is, without any effect,
when the request does not fit. -/
structure Met : Prop where
  reserved : call.result = 0 ∨ call.Reserved b
  refused : ¬ Fits b call.before call.length → call.result = 0 ∧ call.after.nextAlloc = call.before.nextAlloc ∧
    ∀ va, call.after.lastEntry b va = call.before.lastEntry b va

/-- Two regions have no address in common. -/
def Disjoint (x y : AllocCall) : Prop :=
  x.result ≠ 0 → y.result ≠ 0 → ∀ address, ¬ (x.Contains address ∧ y.Contains address)

end AllocCall

def AllocContract (b : Build) (calls : List AllocCall) : Prop :=
  (∀ call ∈ calls, call.Met b) ∧ calls.Pairwise AllocCall.Disjoint

theorem vmmAlloc_result {resolve : Nat → M Nat} (hlength : length ≠ 0)
    (h : vmmAlloc b resolve length s = .ok (r, s')) : r = s.nextAlloc := by
  have hspec : wp (vmmAlloc b resolve length) s (fun r _ => r = s.nextAlloc) fun _ => True := by
    unfold vmmAlloc
    rw [if_neg hlength, wp_bind, wp_get]
    dsimp only
    rw [wp_bind]
    unfold wp
    split <;> trivial
  exact hspec.ok h

/-- A call that fits gets its region; the next one starts after it. -/
theorem HeapInv.alloc_met (h : HeapInv b pool [] s) (hfits : Fits b s length)
    (hcall : vmmAlloc b (resolveWrite b (n + 2)) length s = .ok (r, s')) :
    HeapInv b pool [] s' ∧ AllocCall.Met b ⟨length, r, s, s'⟩ ∧
      (r ≠ 0 → s.nextAlloc = r ∧ r + length ≤ s'.nextAlloc) ∧ s.nextAlloc ≤ s'.nextAlloc := by
  obtain ⟨hr, h', hnext, taken, hw, -⟩ := (h.vmmAlloc_spec hfits).ok hcall
  obtain ⟨hle, -, hend⟩ := h.allocPages_bounds hfits
  refine ⟨h', ⟨?_, fun hnot => absurd hfits hnot⟩, fun hne => ?_, by omega⟩
  · by_cases hlength : length = 0
    · rw [if_pos hlength] at hr
      exact Or.inl hr
    · rw [if_neg hlength] at hr
      subst hr
      refine Or.inr ⟨h.next_mod, h.next_ge, hfits, fun address ⟨hge, hlt⟩ => ?_⟩
      refine hw.set _ (h.page_mem hfits hge hlt) address ?_
      rw [pageAlignDown, Nat.mul_div_cancel _ (by decide)]
  · have hlength : length ≠ 0 := fun hzero => hne (by rw [hr, if_pos hzero])
    rw [if_neg hlength] at hr
    exact ⟨hr.symm, by omega⟩

section Run

variable {start : Machine} {calls : List AllocCall} (hstart : HeapInv b pool [] start)

include hstart

/-- As long as requests fit, the contract is met, and the regions lie below `next_alloc`. -/
theorem AllocRun.contract (hrun : AllocRun b (n + 2) start calls s)
    (hfits : ∀ call ∈ calls, Fits b call.before call.length) :
    HeapInv b pool [] s ∧ AllocContract b calls ∧
      ∀ call ∈ calls, call.result ≠ 0 → call.result + call.length ≤ s.nextAlloc := by
  induction hrun with
  | start => exact ⟨hstart, ⟨nofun, .nil⟩, nofun⟩
  | @step calls s s' length r hrun hlength hcall ih =>
      obtain ⟨h, ⟨hmet, hpairwise⟩, hbelow⟩ := ih fun call hmem => hfits call (List.mem_cons_of_mem _ hmem)
      obtain ⟨h', hmet', hregion, hnext⟩ := h.alloc_met (hfits _ List.mem_cons_self) hcall
      refine ⟨h', ⟨?_, hpairwise.cons fun call hmem hr hne address ⟨hnew, hold⟩ => ?_⟩, fun call hmem hne => ?_⟩
      · rintro call hmem
        rcases List.mem_cons.mp hmem with rfl | hmem
        · exact hmet'
        · exact hmet call hmem
      · have hle := hbelow call hmem hne
        have hstart' := (hregion hr).1
        have hge := hnew.1
        have hlt := hold.2
        dsimp only at hge
        omega
      · rcases List.mem_cons.mp hmem with rfl | hmem
        · exact (hregion hne).2
        · exact (hbelow call hmem hne).trans hnext

theorem AllocRun.fits (hrun : AllocRun b (n + 2) start calls s) (hcontract : AllocContract b calls) :
    ∀ call ∈ calls, Fits b call.before call.length := by
  induction hrun with
  | start => exact nofun
  | @step calls s s' length r hrun hlength hcall ih =>
      obtain ⟨hmet, hpairwise⟩ := hcontract
      have hfits := ih ⟨fun call hmem => hmet call (List.mem_cons_of_mem _ hmem), (List.pairwise_cons.mp hpairwise).2⟩
      obtain ⟨h, -⟩ := hrun.contract hstart hfits
      intro call hmem
      rcases List.mem_cons.mp hmem with rfl | hmem
      · by_contra hnot
        have hnull : r = 0 := ((hmet _ List.mem_cons_self).refused hnot).1
        have hlength : length ≠ 0 := by
          rintro rfl
          exact hnot h.next_le
        have hge := h.next_ge
        rw [← vmmAlloc_result hlength hcall, hnull] at hge
        have hpos : 0 < b.kernelHeapBegin := by cases b <;> decide
        omega
      · exact hfits call hmem

end Run

/-- The contract is met exactly in the runs whose requests all fit, and a request that fits is served unless
page tables run out of frames. -/
theorem alloc_exclusive {calls : List AllocCall} (hbase : LowMap map) (hdisjoint : DisjointMap map)
    (hstart : Started b image map n s) (hrun : AllocRun b (n + 2) s calls s') :
    (AllocContract b calls ↔ ∀ call ∈ calls, Fits b call.before call.length) ∧
      (AllocContract b calls → ∀ length, Fits b s' length →
        wp (vmmAlloc b (resolveWrite b (n + 2)) length) s' (fun _ _ => True)
          (fun e => e = .outOfPhysicalMemory ∧ (s'.freeFrames b).length <
            (missingTables b s' (regionPages b s'.nextAlloc (allocPages b length))).card)) := by
  have hheap := (started_state hbase hdisjoint hstart).heapInv
  refine ⟨⟨hrun.fits hheap, fun hfits => (hrun.contract hheap hfits).2.1⟩, fun hcontract length hfits => ?_⟩
  obtain ⟨h, -⟩ := hrun.contract hheap (hrun.fits hheap hcontract)
  exact (h.vmmAlloc_spec hfits).mono (fun _ _ _ => trivial) fun e he => he

/-- Two pages behind one. -/
theorem alloc_exclusive_page : ∃ s first second s', Started .i386 (smallImage .i386) smallMap 0 s ∧
    AllocRun .i386 2 s [second, first] s' ∧ first.result = 0xE0000000 ∧ second.result = 0xE0001000 ∧
    AllocContract .i386 [second, first] := by
  obtain ⟨s, hstart⟩ := started_small .i386 0
  have hstate := started_state smallMap_low smallMap_disjoint hstart
  have hlength := congrArg List.length hstate.free
  rw [smallMap_length] at hlength
  have hfits : Fits .i386 s 0x1000 := by
    rw [Fits, hstate.nextAlloc]
    decide
  have hpages : allocPages .i386 0x1000 = 1 ∧ allocPages .i386 0x2000 = 2 := by decide
  obtain ⟨s₁, hcall, h₁, hnext, hfree⟩ := hstate.heapInv.served (n := 0) hfits (by omega)
  rw [hpages.1, hstate.nextAlloc] at hnext
  have hfits' : Fits .i386 s₁ 0x2000 := by
    rw [Fits, hnext]
    decide
  obtain ⟨s₂, hcall', -⟩ := h₁.served (n := 0) hfits' (by omega)
  have hrun := AllocRun.step (.step .start (by decide) hcall) (by decide) hcall'
  refine ⟨s, _, _, s₂, hstart, hrun, hstate.nextAlloc, hnext,
    (alloc_exclusive smallMap_low smallMap_disjoint hstart hrun).1.mpr fun call hmem => ?_⟩
  rcases List.mem_cons.mp hmem with rfl | hmem
  · exact hfits'
  · rw [List.mem_singleton.mp hmem]
    exact hfits

/-- A length that rounds to nothing. -/
theorem alloc_overflows : ∃ s call, Started .x86_64 (smallImage .x86_64) smallMap 0 s ∧
    AllocRun .x86_64 2 s [call] s ∧ call.length = 2 ^ 64 - 1 ∧ ¬ AllocContract .x86_64 [call] := by
  obtain ⟨s, hstart⟩ := started_small .x86_64 0
  have hstate := started_state smallMap_low smallMap_disjoint hstart
  have hnext : s.nextAlloc < 2 ^ Build.x86_64.wordBits := hstate.heapInv.next_lt
  have hcall : vmmAlloc .x86_64 (resolveWrite .x86_64 2) (2 ^ 64 - 1) s = .ok (s.nextAlloc, s) := by
    have hnone : allocPages .x86_64 (2 ^ 64 - 1) = 0 := by decide
    have hpages := pagesBetween_alloc (2 ^ 64 - 1) hnext
    rw [hnone] at hpages
    unfold vmmAlloc
    rw [if_neg (by decide), bind_of_ok rfl, hpages]
    rfl
  refine ⟨s, _, hstart, .step .start (by decide) hcall, rfl, fun ⟨hmet, _⟩ => ?_⟩
  have hnot : ¬ Fits .x86_64 s (2 ^ 64 - 1) := by
    rw [Fits, hstate.nextAlloc]
    decide
  have hnull : s.nextAlloc = 0 := ((hmet _ List.mem_cons_self).refused hnot).1
  rw [hstate.nextAlloc] at hnull
  exact absurd hnull (by decide)

end Kiznix.Memory
