import BrickEmu.BiboHeap
import BrickEmu.BrickosHeap
import BrickEmu.Loop

/-!
# The heap walkers as loops

The functions of the emulator that walk the guest's heap follow lengths and
links which the guest may have written.  Here they are loops that may go on
for ever; where the functions with fuel return, the loops end with the same
result.
-/

namespace BrickEmu

open Memory Loop

section Brickos

variable (mmStart cell : ℕ)

/-- Where `brickos_free` is: at the head of its loop, or merging. -/
inductive FreePoint where
  | walking (ptr : ℕ)
  | merging (ptr len nptr : ℕ)

/-- Where `brickos_malloc` is: at the head of its loop, merging, or looking
for the next free block. -/
inductive MallocPoint where
  | walking (ptr : ℕ)
  | merging (ptr len nptr : ℕ)
  | searching (ptr nptr : ℕ)

/-- One pass of the loop that merges, with the length so far. -/
def mergeOne (ptr len nptr : ℕ) (mem : Memory) : ℕ × Memory :=
  let mem := moveCell cell ptr nptr mem
  let len := (len + (2 + mem.readWord (nptr + 2))) % 65536
  (len, mem.writeWord (ptr + 2) len)

def freePass (addr : ℕ) : FreePoint × Memory → FreePoint × Memory ⊕ Memory
  | (.walking ptr, mem) =>
      if ptr < mmStart then .inr mem
      else
        let len := mem.readWord (ptr + 2)
        let nptr := nextPtr ptr len
        if ptr + 4 = addr then
          .inl (.merging ptr len nptr, markFree cell ptr mem)
        else .inl (.walking nptr, mem)
  | (.merging ptr len nptr, mem) =>
      if mem.readWord nptr = 0 then
        let (len, mem) := mergeOne cell ptr len nptr mem
        .inl (.merging ptr len (nextPtr ptr len), mem)
      else .inr mem

def mallocPass (size : ℕ) :
    MallocPoint × Memory → MallocPoint × Memory ⊕ ℕ × Memory
  | (.walking ptr, mem) =>
      if ptr < mmStart then .inr (0, mem)
      else
        let len := mem.readWord (ptr + 2)
        let nptr := nextPtr ptr len
        if mem.readWord ptr = 0 then .inl (.merging ptr len nptr, mem)
        else .inl (.walking nptr, mem)
  | (.merging ptr len nptr, mem) =>
      if mem.readWord nptr = 0 then
        let (len, mem) := mergeOne cell ptr len nptr mem
        .inl (.merging ptr len (nextPtr ptr len), mem)
      else if size < len then
        let (nptr, mem) := splitBlock size ptr len nptr mem
        let mem := mem.writeWord ptr 0xfffe
        if ptr = mem.readWord cell then .inl (.searching ptr nptr, mem)
        else .inr ((ptr + 4) % 65536, mem)
      else .inl (.walking nptr, mem)
  | (.searching ptr nptr, mem) =>
      if mem.readWord nptr ≠ 0 ∧ mmStart ≤ nptr then
        .inl (.searching ptr (nextPtr nptr (mem.readWord (nptr + 2))), mem)
      else .inr ((ptr + 4) % 65536, mem.writeWord cell nptr)

/-- `brickos_dump_memory` only reads. -/
def brickosDumpPass (mem : Memory) (ptr : ℕ) : ℕ ⊕ Unit :=
  if ptr < mmStart then .inr ()
  else .inl (nextPtr ptr (mem.readWord (ptr + 2)))

end Brickos

section Bibo

/-- The loop of `bibo_free`. -/
def placePass (addr : ℕ) (mem : Memory) (prev : ℕ) : ℕ ⊕ ℕ × ℕ :=
  let prevnext := mem.readWord prev
  if prevnext ≠ 0 ∧ prevnext < addr then .inl ((prevnext + 6) % 65536)
  else .inr (prev, prevnext)

def biboMallocPass (size : ℕ) (mem : Memory) (pptr : ℕ) : ℕ ⊕ ℕ × Memory :=
  let ptr := mem.readWord pptr
  if ptr = 0 then .inr (0, mem)
  else
    let blocksize := (mem.readWord (ptr + 2) + 65536 - ptr) % 65536
    if size + 4 ≤ blocksize then
      .inr ((ptr + 6) % 65536, takeFree size pptr ptr blocksize mem)
    else .inl ((ptr + 6) % 65536)

/-- `bibo_dump_memory` compares with `mm_start - 2` in an `int`. -/
def biboDumpPass (mmStart : ℕ) (mem : Memory) (ptr : ℕ) : ℕ ⊕ Unit :=
  if (ptr : ℤ) < mmStart - 2 then .inr ()
  else .inl (clearFlag (mem.readWord (ptr + 2)))

end Bibo

section Results

variable {mmStart cell size addr : ℕ} {mem mem' : Memory}

theorem freePass_ends_of_mergeAdjacent {ptr : ℕ} (fuel : ℕ) :
    ∀ {mem : Memory} {len nptr : ℕ} {merged : Memory × ℕ × ℕ},
      mergeAdjacent cell ptr fuel mem len nptr = some merged →
      Ends (freePass mmStart cell addr) (.merging ptr len nptr, mem)
        merged.1 := by
  induction fuel with
  | zero => rintro _ _ _ _ ⟨⟩
  | succ fuel ih =>
      intro mem len nptr merged hmerged
      unfold mergeAdjacent at hmerged
      split_ifs at hmerged with hfree
      · exact .next (by simp [freePass, hfree, mergeOne]) (ih hmerged)
      · cases hmerged
        exact .result (by simp [freePass, hfree])

theorem freePass_ends_of_freeFrom (fuel : ℕ) :
    ∀ {ptr : ℕ}, freeFrom mmStart cell addr fuel ptr mem = some mem' →
      Ends (freePass mmStart cell addr) (.walking ptr, mem) mem' := by
  induction fuel with
  | zero => rintro _ ⟨⟩
  | succ fuel ih =>
      intro ptr hfreed
      unfold freeFrom at hfreed
      split_ifs at hfreed with hend hfound
      · cases hfreed
        exact .result (by simp [freePass, hend])
      · obtain ⟨merged, hmerged, rfl⟩ := Option.map_eq_some_iff.mp hfreed
        exact .next (by simp [freePass, hend, hfound])
          (freePass_ends_of_mergeAdjacent walkLimit hmerged)
      · exact .next (by simp [freePass, hend, hfound]) (ih hfreed)

/-- Where the function with fuel returns, the loop ends alike. -/
theorem brickosFree_ends (hstart : mmStart ≠ 0)
    (hfreed : brickosFree mmStart cell addr mem = some mem') :
    Ends (freePass mmStart cell addr) (.walking mmStart, mem) mem' := by
  rw [brickosFree, if_neg hstart] at hfreed
  exact freePass_ends_of_freeFrom walkLimit hfreed

/-- The loop reaches the end of a merge. -/
theorem mallocPass_merges {ptr : ℕ} (fuel : ℕ) :
    ∀ {mem : Memory} {len nptr : ℕ} {mem' : Memory} {len' nptr' : ℕ},
      mergeAdjacent cell ptr fuel mem len nptr = some (mem', len', nptr') →
      mem'.readWord nptr' ≠ 0 ∧
        Reaches (mallocPass mmStart cell size) (.merging ptr len nptr, mem)
          (.merging ptr len' nptr', mem') := by
  induction fuel with
  | zero => rintro _ _ _ _ _ _ ⟨⟩
  | succ fuel ih =>
      intro mem len nptr mem' len' nptr' hmerged
      unfold mergeAdjacent at hmerged
      split_ifs at hmerged with hfree
      · obtain ⟨hused, hreach⟩ := ih hmerged
        have hfirst : mallocPass mmStart cell size
            (.merging ptr len nptr, mem) = .inl (.merging ptr
              (mergeOne cell ptr len nptr mem).1
              (nextPtr ptr (mergeOne cell ptr len nptr mem).1),
              (mergeOne cell ptr len nptr mem).2) := by
          simp [mallocPass, hfree]
        exact ⟨hused, .head hfirst hreach⟩
      · cases hmerged
        exact ⟨hfree, .refl⟩

theorem mallocPass_ends_of_findFree {ptr : ℕ} (fuel : ℕ) :
    ∀ {nptr found : ℕ}, findFree mmStart mem fuel nptr = some found →
      Ends (mallocPass mmStart cell size) (.searching ptr nptr, mem)
        ((ptr + 4) % 65536, mem.writeWord cell found) := by
  induction fuel with
  | zero => rintro _ _ ⟨⟩
  | succ fuel ih =>
      intro nptr found hfound
      unfold findFree at hfound
      split_ifs at hfound with hused
      · exact .next (by simp [mallocPass, hused]) (ih hfound)
      · cases hfound
        apply Ends.result
        simp only [mallocPass, if_neg hused]

/-- The end of `brickos_malloc` behind its merge. -/
theorem mallocPass_ends_of_takeBlock {ptr len nptr : ℕ} {taken : ℕ × Memory}
    (hused : mem.readWord nptr ≠ 0) (hsize : size < len)
    (htaken : takeBlock mmStart cell size ptr len nptr mem = some taken) :
    Ends (mallocPass mmStart cell size) (.merging ptr len nptr, mem)
      taken := by
  unfold takeBlock at htaken
  generalize hsplit : splitBlock size ptr len nptr mem = split at htaken
  obtain ⟨nptr', mem'⟩ := split
  simp only at htaken
  split_ifs at htaken with hfirst
  · obtain ⟨found, hfound, rfl⟩ := Option.map_eq_some_iff.mp htaken
    exact .next (by simp [mallocPass, hused, hsize, hsplit, ← hfirst])
      (mallocPass_ends_of_findFree walkLimit hfound)
  · cases htaken
    exact .result (by simp [mallocPass, hused, hsize, hsplit, hfirst])

theorem mallocPass_ends_of_mallocFrom (fuel : ℕ) :
    ∀ {ptr : ℕ} {mem : Memory} {taken : ℕ × Memory},
      mallocFrom mmStart cell size fuel ptr mem = some taken →
      Ends (mallocPass mmStart cell size) (.walking ptr, mem) taken := by
  induction fuel with
  | zero => rintro _ _ _ ⟨⟩
  | succ fuel ih =>
      intro ptr mem taken htaken
      by_cases hend : ptr < mmStart
      · simp only [mallocFrom, if_pos hend] at htaken
        cases htaken
        exact .result (by simp [mallocPass, hend])
      by_cases hfree : mem.readWord ptr = 0
      · simp only [mallocFrom, if_neg hend, hfree, true_and] at htaken
        cases hmerged : mergeAdjacent cell ptr walkLimit mem
            (mem.readWord (ptr + 2))
            (nextPtr ptr (mem.readWord (ptr + 2))) with
        | none => simp [hmerged] at htaken
        | some merged =>
            obtain ⟨mem', len', nptr'⟩ := merged
            simp only [hmerged, if_true] at htaken
            obtain ⟨hused, hreach⟩ :=
              @mallocPass_merges mmStart cell size ptr _ _ _ _ _ _ _ hmerged
            have hbehind : Ends (mallocPass mmStart cell size)
                (.merging ptr len' nptr', mem') taken := by
              by_cases hsize : size < len'
              · rw [if_pos hsize] at htaken
                exact mallocPass_ends_of_takeBlock hused hsize htaken
              · rw [if_neg hsize] at htaken
                exact .next (by simp [mallocPass, hused, hsize]) (ih htaken)
            exact .next (by simp [mallocPass, hend, hfree])
              (hbehind.of_reaches hreach)
      · simp only [mallocFrom, if_neg hend, hfree, false_and, if_false]
          at htaken
        exact .next (by simp [mallocPass, hend, hfree]) (ih htaken)

theorem brickosMalloc_ends {taken : ℕ × Memory} (hstart : mmStart ≠ 0)
    (htaken : brickosMalloc mmStart cell size mem = some taken) :
    Ends (mallocPass mmStart cell ((size + 1) / 2)) (.walking mmStart, mem)
      taken := by
  rw [brickosMalloc, if_neg hstart] at htaken
  exact mallocPass_ends_of_mallocFrom walkLimit htaken

theorem findPlace_ends (fuel : ℕ) :
    ∀ {prev : ℕ} {place : ℕ × ℕ},
      findPlace addr mem fuel prev = some place →
      Ends (placePass addr mem) prev place := by
  induction fuel with
  | zero => rintro _ _ ⟨⟩
  | succ fuel ih =>
      intro prev place hplace
      simp only [findPlace] at hplace
      split_ifs at hplace with hbelow
      · exact .next (by simp [placePass, hbelow]) (ih hplace)
      · cases hplace
        apply Ends.result
        simp only [placePass, if_neg hbelow]

theorem biboMallocFrom_ends (fuel : ℕ) :
    ∀ {pptr : ℕ} {taken : ℕ × Memory},
      biboMallocFrom size mem fuel pptr = some taken →
      Ends (biboMallocPass size mem) pptr taken := by
  induction fuel with
  | zero => rintro _ _ ⟨⟩
  | succ fuel ih =>
      intro pptr taken htaken
      simp only [biboMallocFrom] at htaken
      split_ifs at htaken with hend hlarge
      · cases htaken
        exact .result (by simp [biboMallocPass, hend])
      · cases htaken
        exact .result (by simp [biboMallocPass, hend, hlarge])
      · exact .next (by simp [biboMallocPass, hend, hlarge]) (ih htaken)

end Results

end BrickEmu
