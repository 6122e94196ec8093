import BrickEmu.BrickosFirstFree
import BrickEmu.MaximalRuns

/-!
# What `brickos_malloc` finds

`brickos_malloc` looks at every maximal run of free blocks as one block.  It
takes the first run that is longer than the size, so it gives up on an exact
fit.
-/

namespace BrickEmu

open Memory

def Block.Free (b : Block) : Prop :=
  b.type = 0

/-- The words of adjacent blocks taken as one; every header that goes is two
words. -/
def runWords (run : List Block) : ℕ :=
  (run.map fun b => b.len + 2).sum - 2

section Lists

variable {stop size v w v' : ℕ} {b c : Block} {bs cs bs' : List Block}

theorem runWords_absorb (b c : Block) (cs : List Block) :
    runWords (b.absorb c :: cs) = runWords (b :: c :: cs) := by
  simp only [runWords, Block.absorb, List.map_cons, List.sum_cons]
  omega

/-- Merging takes in the rest of the run. -/
theorem coalesce_run (h : coalesce b bs v = (c, cs, w)) :
    ∃ run, bs = run ++ cs ∧ (∀ d ∈ run, d.Free) ∧ StopsAt Block.Free cs ∧
      c.len = runWords (b :: run) := by
  induction bs generalizing b v with
  | nil =>
      cases h
      refine ⟨[], rfl, by simp, by simp [StopsAt], ?_⟩
      simp [runWords]
  | cons d ds ih =>
      by_cases hd : d.type = 0
      · rw [coalesce, if_pos hd] at h
        obtain ⟨run, rfl, hfree, hstops, hlen⟩ := ih h
        refine ⟨d :: run, rfl, ?_, hstops, ?_⟩
        · exact List.forall_mem_cons.mpr ⟨hd, hfree⟩
        · rw [hlen, runWords_absorb]
      · rw [coalesce, if_neg hd] at h
        cases h
        refine ⟨[], rfl, by simp, ?_, ?_⟩
        · rintro e ⟨rfl⟩
          exact hd
        · simp [runWords]

/-- The runs of a heap that begins with a free block. -/
theorem maximalRun_coalesce_iff (hb : b.type = 0)
    (h : coalesce b bs v = (c, cs, w)) :
    ∃ first, c.len = runWords first ∧ ∀ run,
      MaximalRun Block.Free (b :: bs) run ↔
        run = first ∨ MaximalRun Block.Free cs run := by
  obtain ⟨ds, rfl, hfree, hstops, hlen⟩ := coalesce_run h
  refine ⟨b :: ds, hlen, fun run => ?_⟩
  rw [← List.cons_append]
  apply MaximalRun.append_iff (List.cons_ne_nil b ds) _ hstops
  exact List.forall_mem_cons.mpr ⟨hb, hfree⟩

namespace Allocates

theorem run_le (h : Allocates stop size bs v none bs' v') {run : List Block}
    (hrun : MaximalRun Block.Free bs run) : runWords run ≤ size := by
  generalize hr : (none : Option Block) = r at h
  induction h with
  | exhausted => exact absurd hrun MaximalRun.not_nil
  | @used b bs bs' v v' r hb htail ih =>
      have hused : ¬b.Free := hb
      exact ih ((MaximalRun.cons_iff hused).mp hrun) hr
  | small hb hmerge hsize htail ih =>
      obtain ⟨first, hlen, hruns⟩ := maximalRun_coalesce_iff hb hmerge
      rcases (hruns run).mp hrun with rfl | hrest
      · exact hlen ▸ hsize
      · exact ih hrest hr
  | found => cases hr

theorem exists_run_lt (h : Allocates stop size bs v (some b) bs' v') :
    ∃ run, MaximalRun Block.Free bs run ∧ size < runWords run := by
  generalize hr : some b = r at h
  induction h with
  | exhausted => cases hr
  | used hb htail ih =>
      obtain ⟨run, hrun, hlt⟩ := ih hr
      exact ⟨run, hrun.cons hb, hlt⟩
  | small hb hmerge hsize htail ih =>
      obtain ⟨first, -, hruns⟩ := maximalRun_coalesce_iff hb hmerge
      obtain ⟨run, hrun, hlt⟩ := ih hr
      exact ⟨run, (hruns run).mpr (Or.inr hrun), hlt⟩
  | found hb hmerge hsize =>
      obtain ⟨first, hlen, hruns⟩ := maximalRun_coalesce_iff hb hmerge
      exact ⟨first, (hruns first).mpr (Or.inl rfl), hlen ▸ hsize⟩

end Allocates

end Lists

namespace BrickosHeap

variable {mmStart cell : ℕ}

/-- The run as one block has at least the words that the size needs. -/
def Fits (heap : BrickosHeap mmStart cell) (size : ℕ) (run : List Block) :
    Prop :=
  MaximalRun Block.Free heap.blocks run ∧ (size + 1) / 2 ≤ runWords run

/-- The result is 0 only when no run of free blocks fits. -/
def FindsMemory (heap : BrickosHeap mmStart cell) (size : ℕ) : Prop :=
  ∃ result mem', brickosMalloc mmStart cell size heap.memory =
      some (result, mem') ∧ (result = 0 → ∀ run, ¬heap.Fits size run)

/-- The exact result: `brickos_malloc` finds memory exactly when some run is
longer than the size. -/
theorem malloc_eq_zero_iff (heap : BrickosHeap mmStart cell) (size : ℕ) :
    ∃ result mem', brickosMalloc mmStart cell size heap.memory =
        some (result, mem') ∧
      (result = 0 ↔ ∀ run, MaximalRun Block.Free heap.blocks run →
        runWords run ≤ (size + 1) / 2) := by
  obtain ⟨r, bs', mem', htiles, hrun, hallocates, -⟩ :=
    heap.malloc_refines size
  refine ⟨resultOf r, mem', hrun, ?_⟩
  cases r with
  | none => exact iff_of_true rfl fun run hmaximal => hallocates.run_le hmaximal
  | some b =>
      obtain ⟨run, hmaximal, hlt⟩ := hallocates.exists_run_lt
      apply iff_of_false
      · exact Nat.succ_ne_zero _
      · intro hall
        have hle := hall run hmaximal
        omega

/-- `brickos_malloc` misses memory exactly when the longest runs of free
blocks fit exactly. -/
theorem findsMemory_iff (heap : BrickosHeap mmStart cell) (size : ℕ) :
    heap.FindsMemory size ↔
      (∃ run, MaximalRun Block.Free heap.blocks run ∧
        (size + 1) / 2 < runWords run) ∨
      ∀ run, MaximalRun Block.Free heap.blocks run →
        runWords run ≠ (size + 1) / 2 := by
  obtain ⟨result, mem', hrun, hzero⟩ := heap.malloc_eq_zero_iff size
  constructor
  · rintro ⟨result', mem'', hrun', hfinds⟩
    obtain ⟨rfl, rfl⟩ : result = result' ∧ mem' = mem'' := by
      simpa only [hrun, Option.some.injEq, Prod.mk.injEq] using hrun'
    by_cases hresult : result = 0
    · right
      intro run hmaximal heq
      exact hfinds hresult run ⟨hmaximal, heq.ge⟩
    · left
      by_contra hnone
      apply hresult (hzero.mpr fun run hmaximal => ?_)
      by_contra hlonger
      exact hnone ⟨run, hmaximal, not_le.mp hlonger⟩
  · intro hcondition
    refine ⟨result, mem', hrun, ?_⟩
    rintro hresult run ⟨hmaximal, hfits⟩
    have hle := hzero.mp hresult
    rcases hcondition with ⟨longer, hlonger, hlt⟩ | hne
    · have hbound := hle longer hlonger
      omega
    · exact hne run hmaximal (le_antisymm (hle run hmaximal) hfits)

/-- A request that fits exactly is turned down. -/
theorem findsMemory_fails_exact : ¬freeThenUsed.FindsMemory 4 := by
  rintro ⟨result, mem', hrun, hfinds⟩
  have hzero : (brickosMalloc 0x8000 0x7ffe 4 freeThenUsed.memory).map
      Prod.fst = some 0 := by
    decide +kernel
  rw [hrun] at hzero
  apply hfinds (Option.some.inj hzero) [⟨0x8000, 0, 2⟩]
  refine ⟨⟨by simp, ?_, [], freeThenUsed.blocks.tail, rfl, by simp, ?_⟩, ?_⟩
  · simp [Block.Free]
  · rintro b ⟨rfl⟩
    simp [Block.Free]
  · decide

end BrickosHeap

end BrickEmu
