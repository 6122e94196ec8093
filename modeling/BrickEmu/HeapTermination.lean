import BrickEmu.HeapChain

/-!
# Termination of the heap walkers

Whether a walker terminates is read off the image in front of it: the chain
of lengths or links that it follows leads to an end.  For the functions of
brickOS, which write on the way, the chain is the one of the image as long as
they write to no header that they meet.
-/

namespace BrickEmu

open Memory Loop

section Rows

variable {mem : Memory} {ptr : ℕ}

/-- A row of free blocks ends, or goes on for ever. -/
theorem fullRun_or_endless (mem : Memory) (ptr : ℕ) :
    (∃ n, FullRun mem ptr n) ∨ ∀ n, FreeRun mem ptr n := by
  by_cases hused : ∃ n, mem.readWord (block mem ptr (n + 1)) ≠ 0
  · left
    classical
    refine ⟨Nat.find hused, ?_, Nat.find_spec hused⟩
    intro i hpos hi
    have hbefore := Nat.find_min hused (m := i - 1) (by omega)
    rw [Nat.sub_add_cancel hpos] at hbefore
    exact of_not_not hbefore
  · right
    intro n i hpos _
    by_contra hend
    exact hused ⟨i - 1, by rwa [Nat.sub_add_cancel hpos]⟩

/-- The blocks of a chain up to where it comes to a block in use below the
limit. -/
def metFrom (mem : Memory) (limit ptr : ℕ) : Set ℕ :=
  {b | ∃ n, block mem ptr n = b ∧ ∀ k < n,
    limit ≤ block mem ptr k ∨ mem.readWord (block mem ptr k) = 0}

variable {limit : ℕ}

theorem self_mem_metFrom : ptr ∈ metFrom mem limit ptr :=
  ⟨0, rfl, fun k hk => absurd hk (Nat.not_lt_zero k)⟩

theorem next_mem_metFrom {b : ℕ} (hb : b ∈ metFrom mem limit ptr)
    (hgoes : limit ≤ b ∨ mem.readWord b = 0) :
    nextBlock mem b ∈ metFrom mem limit ptr := by
  obtain ⟨n, rfl, hbefore⟩ := hb
  refine ⟨n + 1, block_succ ptr n, ?_⟩
  intro k hk
  rcases (Nat.lt_succ_iff.mp hk).eq_or_lt with rfl | hlt
  · exact hgoes
  · exact hbefore k hlt

theorem metFrom_subset {S : Set ℕ} (hptr : ptr ∈ S)
    (hclosed : ∀ b ∈ S, limit ≤ b ∨ mem.readWord b = 0 →
      nextBlock mem b ∈ S) : metFrom mem limit ptr ⊆ S := by
  rintro _ ⟨n, rfl, hbefore⟩
  induction n with
  | zero => exact hptr
  | succ n ih =>
      rw [block_succ]
      exact hclosed _ (ih fun k hk => hbefore k (by omega))
        (hbefore n (by omega))

theorem met_metFrom (hptr : ptr < 65536) :
    Met mem (metFrom mem limit ptr) := by
  refine ⟨fun b hb hfree => next_mem_metFrom hb (Or.inr hfree), ?_⟩
  rintro _ ⟨n, rfl, -⟩
  cases n with
  | zero => exact hptr
  | succ n =>
      rw [block_succ]
      exact nextPtr_lt _ _

end Rows

section Malloc

variable (mem : Memory) (mmStart size : ℕ)

/-- Behind the row the chain comes to a free block or below the heap, and not
back to the first block of the row, which is in use by then. -/
def SearchEnds (ptr n : ℕ) : Prop :=
  ∃ k, n < k ∧
    (mem.readWord (block mem ptr k) = 0 ∨ block mem ptr k < mmStart) ∧
      ∀ i, n < i → i ≤ k → block mem ptr i ≠ ptr

/-- The first block of the row can be taken: it is split, or it is not the
first free block, or the next free block is found. -/
def TakeEnds (first ptr n : ℕ) : Prop :=
  (size + 8 < runLen mem ptr n ∧ nextPtr ptr size ≠ ptr) ∨
    firstAfter mem first ptr n ≠ ptr ∨ SearchEnds mem mmStart ptr n

/-- Read as blocks in use and rows of free blocks, the image leads from the
block to an end: to a block below the heap, or to a row that is long
enough. -/
inductive RowsEnd : ℕ → ℕ → Prop
  | outside {first ptr : ℕ} (hbelow : ptr < mmStart) : RowsEnd first ptr
  | used {first ptr : ℕ} (hused : mem.readWord ptr ≠ 0)
      (hnext : RowsEnd first (nextBlock mem ptr)) : RowsEnd first ptr
  | small {first ptr n : ℕ} (hhead : mem.readWord ptr = 0)
      (hfull : FullRun mem ptr n) (hsmall : runLen mem ptr n ≤ size)
      (hnext : RowsEnd (firstAfter mem first ptr n) (block mem ptr (n + 1))) :
      RowsEnd first ptr
  | fits {first ptr n : ℕ} (hhead : mem.readWord ptr = 0)
      (hfull : FullRun mem ptr n) (hfits : size < runLen mem ptr n)
      (htake : TakeEnds mem mmStart size first ptr n) : RowsEnd first ptr

variable {mem mmStart size} {mem' : Memory} {cell first ptr n : ℕ}
  {met : Set ℕ}

/-- The memory while the search goes on: the first block of the row is in
use, and the chain behind it leads back to the end of the row. -/
structure Searching (mem : Memory) (mmStart : ℕ) (met : Set ℕ) (ptr n : ℕ)
    (mem' : Memory) : Prop where
  type : ∀ b ∈ met, b ≠ ptr → mem'.readWord b = mem.readWord b
  len : ∀ b ∈ met, b ≠ ptr → mmStart ≤ b → mem.readWord b ≠ 0 →
    nextBlock mem' b = nextBlock mem b
  taken : mem'.readWord ptr ≠ 0
  start : mmStart ≤ ptr
  back : nextBlock mem' ptr = block mem ptr (n + 1)

/-- Where the search stops. -/
def SearchStops (mmStart : ℕ) (mem : Memory) (nptr : ℕ) : Prop :=
  ¬ (mem.readWord nptr ≠ 0 ∧ mmStart ≤ nptr)

section Search

variable (hheap : ∀ b ∈ met, mmStart ≤ b → nextBlock mem b ∈ met)
  (h : Searching mem mmStart met ptr n mem')

include hheap h

theorem searchEnds_of_stops (k : ℕ) :
    ∀ i, n < i → block mem ptr i ∈ met →
      (∀ x, n < x → x < i → block mem ptr x ≠ ptr) →
      SearchStops mmStart mem' ((nextBlock mem')^[k] (block mem ptr i)) →
      block mem ptr (n + 1) ∈ met → SearchEnds mem mmStart ptr n := by
  induction k with
  | zero =>
      intro i hi hmem hbefore hstops _
      have hne : block mem ptr i ≠ ptr := by
        intro hself
        apply hstops
        rw [Function.iterate_zero_apply, hself]
        exact ⟨h.taken, h.start⟩
      refine ⟨i, hi, ?_, ?_⟩
      · rw [← h.type _ hmem hne]
        unfold SearchStops at hstops
        rw [Function.iterate_zero_apply] at hstops
        by_contra hneither
        exact hstops ⟨fun hfree => hneither (Or.inl hfree), by omega⟩
      · intro x hx hxi
        rcases hxi.eq_or_lt with rfl | hlt
        · exact hne
        · exact hbefore x hx hlt
  | succ k ih =>
      intro i hi hmem hbefore hstops hend
      rw [Function.iterate_succ_apply] at hstops
      by_cases hself : block mem ptr i = ptr
      · rw [hself, h.back] at hstops
        exact ih (n + 1) (by omega) hend (fun x hx hlt => by omega) hstops hend
      by_cases hnow : mem.readWord (block mem ptr i) = 0 ∨
          block mem ptr i < mmStart
      · refine ⟨i, hi, hnow, ?_⟩
        intro x hx hxi
        rcases hxi.eq_or_lt with rfl | hlt
        · exact hself
        · exact hbefore x hx hlt
      · rw [not_or, Nat.not_lt] at hnow
        rw [h.len _ hmem hself hnow.2 hnow.1, ← block_succ] at hstops
        refine ih (i + 1) (by omega) ?_ ?_ hstops hend
        · rw [block_succ]
          exact hheap _ hmem hnow.2
        · intro x hx hlt
          rcases (Nat.lt_succ_iff.mp hlt).eq_or_lt with rfl | hless
          · exact hself
          · exact hbefore x hx hless

theorem stops_of_searchEnds {k : ℕ}
    (hstop : mem.readWord (block mem ptr k) = 0 ∨ block mem ptr k < mmStart)
    (hne : ∀ x, n < x → x ≤ k → block mem ptr x ≠ ptr) (j : ℕ) :
    ∀ i, n < i → i + j = k → block mem ptr i ∈ met →
      ∃ d, SearchStops mmStart mem'
        ((nextBlock mem')^[d] (block mem ptr i)) := by
  induction j with
  | zero =>
      rintro i hi rfl hmem
      refine ⟨0, ?_⟩
      unfold SearchStops
      rw [Function.iterate_zero_apply, h.type _ hmem (hne i hi le_rfl)]
      rintro ⟨hused, habove⟩
      rcases hstop with hfree | hbelow
      · exact hused hfree
      · rw [Nat.add_zero] at hbelow
        omega
  | succ j ih =>
      intro i hi hk hmem
      have hself := hne i hi (by omega)
      by_cases hnow : SearchStops mmStart mem' (block mem ptr i)
      · refine ⟨0, ?_⟩
        rw [Function.iterate_zero_apply]
        exact hnow
      · unfold SearchStops at hnow
        rw [not_not, h.type _ hmem hself] at hnow
        obtain ⟨d, hd⟩ := ih (i + 1) (by omega) (by omega) (by
          rw [block_succ]
          exact hheap _ hmem hnow.2)
        refine ⟨d + 1, ?_⟩
        rw [Function.iterate_succ_apply, h.len _ hmem hself hnow.2 hnow.1,
          ← block_succ]
        exact hd

/-- The search for the next free block ends as in the image. -/
theorem search_halts_iff (hend : block mem ptr (n + 1) ∈ met) :
    Halts (mallocPass mmStart cell size)
        (.searching ptr (block mem ptr (n + 1)), mem') ↔
      SearchEnds mem mmStart ptr n := by
  have hchain : Halts (mallocPass mmStart cell size)
      (.searching ptr (block mem ptr (n + 1)), mem') ↔
      ∃ d, SearchStops mmStart mem'
        ((nextBlock mem')^[d] (block mem ptr (n + 1))) := by
    apply @halts_iff_stops _ _ (mallocPass mmStart cell size) _
      (fun nptr => (.searching ptr nptr, mem'))
    · intro nptr hstops
      have hstop : ¬ (mem'.readWord nptr ≠ 0 ∧ mmStart ≤ nptr) := hstops
      refine ⟨((ptr + 4) % 65536, mem'.writeWord cell nptr), ?_⟩
      simp only [mallocPass, if_neg hstop]
    · intro nptr hgoes
      have hgo : mem'.readWord nptr ≠ 0 ∧ mmStart ≤ nptr := of_not_not hgoes
      simp only [mallocPass, if_pos hgo, nextBlock]
  rw [hchain]
  constructor
  · rintro ⟨d, hd⟩
    exact searchEnds_of_stops hheap h d (n + 1) (by omega) hend
      (fun x hx hlt => by omega) hd hend
  · rintro ⟨k, hk, hstop, hne⟩
    exact stops_of_searchEnds hheap h hstop hne (k - (n + 1)) (n + 1)
      (by omega) (by omega) hend

end Search

/-- The block behind a row is still in use. -/
theorem Merged.used_behind (h : Merged mem cell met first mem')
    (hmet : Met mem met) (hptr : ptr ∈ met) (hhead : mem.readWord ptr = 0)
    (hfull : FullRun mem ptr n) :
    mem'.readWord (block mem ptr (n + 1)) ≠ 0 := by
  rw [h.type _ (hmet.block hptr hhead hfull.free)]
  exact hfull.used

section Take

variable (hundisturbed : Undisturbed mem cell met) (hmet : Met mem met)
  (hheap : ∀ b ∈ met, mmStart ≤ b → nextBlock mem b ∈ met)
  (hptr : ptr ∈ met) (hhead : mem.readWord ptr = 0) (hstart : mmStart ≤ ptr)
  (hfull : FullRun mem ptr n)
  (h : Merged mem cell met (firstAfter mem first ptr n) mem')
  (hown : mem'.readWord (ptr + 2) = runLen mem ptr n)
  (hfits : size < runLen mem ptr n)

/-- The pass in which a block is taken. -/
theorem mallocPass_take {len nptr : ℕ} {mem : Memory}
    (hused : mem.readWord nptr ≠ 0) (hsize : size < len) :
    mallocPass mmStart cell size (.merging ptr len nptr, mem) =
      if ptr = ((splitBlock size ptr len nptr mem).2.writeWord ptr
          0xfffe).readWord cell then
        .inl (.searching ptr (splitBlock size ptr len nptr mem).1,
          (splitBlock size ptr len nptr mem).2.writeWord ptr 0xfffe)
      else .inr ((ptr + 4) % 65536,
        (splitBlock size ptr len nptr mem).2.writeWord ptr 0xfffe) := by
  simp only [mallocPass, if_neg hused, if_pos hsize]

include hundisturbed hptr hhead hstart h in
/-- A memory that differs only in the header of the block. -/
theorem searching_of_header {last : Memory}
    (hsame : ∀ x, x + 2 ≤ ptr ∨ ptr + 4 ≤ x →
      last.readWord x = mem'.readWord x)
    (htaken : last.readWord ptr ≠ 0)
    (hback : nextBlock last ptr = block mem ptr (n + 1)) :
    Searching mem mmStart met ptr n last := by
  refine ⟨?_, ?_, htaken, hstart, hback⟩
  · intro b hb hne
    have hheaders := hundisturbed.headers ptr hptr hhead b hb
    rw [hsame b (by omega)]
    exact h.type b hb
  · intro b hb hne habove hused
    have hheaders := hundisturbed.headers ptr hptr hhead b hb
    obtain ⟨k, hlen, hrow⟩ := h.len b hb
    have hplain : mem'.readWord (b + 2) = mem.readWord (b + 2) := by
      rcases hrow with rfl | ⟨hfree, -⟩
      · exact hlen
      · exact absurd hfree hused
    unfold nextBlock
    rw [hsame (b + 2) (by omega), hplain]

include hundisturbed hmet hheap hptr hhead hstart hfull h in
/-- A block that is taken without being split. -/
theorem take_halts_iff_of_header {last : Memory} {nptr : ℕ}
    (hpass : mallocPass mmStart cell size (.merging ptr (runLen mem ptr n)
        (block mem ptr (n + 1)), mem') =
      if ptr = last.readWord cell then .inl (.searching ptr nptr, last)
      else .inr ((ptr + 4) % 65536, last))
    (hsame : ∀ x, x + 2 ≤ ptr ∨ ptr + 4 ≤ x →
      last.readWord x = mem'.readWord x)
    (htaken : last.readWord ptr ≠ 0)
    (hback : nextBlock last ptr = block mem ptr (n + 1))
    (hnptr : nptr = block mem ptr (n + 1) ∨ nptr = ptr) :
    Halts (mallocPass mmStart cell size)
        (.merging ptr (runLen mem ptr n) (block mem ptr (n + 1)), mem') ↔
      firstAfter mem first ptr n ≠ ptr ∨ SearchEnds mem mmStart ptr n := by
  have hapart := hundisturbed.apart ptr hptr
  unfold Apart at hapart
  have hcell : last.readWord cell = firstAfter mem first ptr n := by
    rw [hsame cell (by omega)]
    exact h.first
  have hend := hmet.block hptr hhead hfull.free
  have hsearching := searching_of_header hundisturbed hptr hhead hstart h
    hsame htaken hback
  rw [hcell] at hpass
  by_cases hfirst : ptr = firstAfter mem first ptr n
  · rw [if_pos hfirst] at hpass
    have hnot : ¬ firstAfter mem first ptr n ≠ ptr := not_not.mpr hfirst.symm
    have hsearch : Halts (mallocPass mmStart cell size)
        (.searching ptr (block mem ptr (n + 1)), last) ↔
          SearchEnds mem mmStart ptr n :=
      search_halts_iff hheap hsearching hend
    rw [halts_iff_of_next hpass, or_iff_right hnot, ← hsearch]
    rcases hnptr with rfl | rfl
    · exact Iff.rfl
    · apply halts_iff_of_next
      have hgo : last.readWord nptr ≠ 0 ∧ mmStart ≤ nptr :=
        ⟨htaken, hstart⟩
      simp only [mallocPass, if_pos hgo]
      unfold nextBlock at hback
      rw [hback]
  · rw [if_neg hfirst] at hpass
    exact iff_of_true (halts_of_result hpass)
      (Or.inl fun hsame => hfirst hsame.symm)

/-- A block that is split leaves a free block behind it. -/
theorem free_behind_split {len nptr : ℕ} {mem : Memory}
    (hlarge : size + 8 < len) (hne : nextPtr ptr size ≠ ptr) :
    (splitBlock size ptr len nptr mem).1 = nextPtr ptr size ∧
      ((splitBlock size ptr len nptr mem).2.writeWord ptr
        0xfffe).readWord (nextPtr ptr size) = 0 := by
  have hparity : nextPtr ptr size % 2 = ptr % 2 := by
    unfold nextPtr
    omega
  simp only [splitBlock, if_pos hlarge]
  generalize nextPtr ptr size = nptr' at hne hparity ⊢
  refine ⟨trivial, ?_⟩
  rw [readWord_writeWord_of_apart (by omega),
    readWord_writeWord_of_apart (by omega)]
  exact readWord_writeWord (by omega)

include hundisturbed hmet hheap hptr hhead hstart hfull h hown hfits in
/-- Taking a block ends as in the image. -/
theorem take_halts_iff :
    Halts (mallocPass mmStart cell size)
        (.merging ptr (runLen mem ptr n) (block mem ptr (n + 1)), mem') ↔
      TakeEnds mem mmStart size first ptr n := by
  have hused := h.used_behind hmet hptr hhead hfull
  have hbound := hmet.bound ptr hptr
  have hlen := @runLen_lt mem ptr n
  have hnext := @nextPtr_runLen mem ptr n
  have hpass := @mallocPass_take mmStart size cell ptr _ _ _ hused hfits
  unfold TakeEnds
  by_cases hlarge : size + 8 < runLen mem ptr n
  · by_cases hself : nextPtr ptr size = ptr
    · -- the block behind the split is the block itself
      have hnot : ¬ (size + 8 < runLen mem ptr n ∧ nextPtr ptr size ≠ ptr) :=
        fun hboth => hboth.2 hself
      rw [or_iff_right hnot]
      simp only [splitBlock, if_pos hlarge, hself] at hpass
      refine take_halts_iff_of_header hundisturbed hmet hheap hptr hhead
        hstart hfull h hpass ?_ ?_ ?_ (Or.inr rfl)
      · intro x hx
        rw [readWord_writeWord_of_apart (by omega),
          readWord_writeWord_of_apart (by omega),
          readWord_writeWord_of_apart (by omega),
          readWord_writeWord_of_apart (by omega)]
      · rw [readWord_writeWord (by omega)]
        omega
      · rw [nextBlock, readWord_writeWord_of_apart (by omega),
          readWord_writeWord (by omega), ← hnext]
        unfold nextPtr at hself ⊢
        omega
    · obtain ⟨hnptr, hfree⟩ := @free_behind_split size ptr
        (runLen mem ptr n) (block mem ptr (n + 1)) mem' hlarge hself
      refine iff_of_true ?_ (Or.inl ⟨hlarge, hself⟩)
      by_cases hfirst : ptr = ((splitBlock size ptr (runLen mem ptr n)
          (block mem ptr (n + 1)) mem').2.writeWord ptr 0xfffe).readWord cell
      · rw [if_pos hfirst, hnptr] at hpass
        rw [halts_iff_of_next hpass]
        apply halts_of_result
        rw [mallocPass, if_neg fun hgo => hgo.1 hfree]
      · rw [if_neg hfirst] at hpass
        exact halts_of_result hpass
  · have hnot : ¬ (size + 8 < runLen mem ptr n ∧ nextPtr ptr size ≠ ptr) :=
      fun hboth => hlarge hboth.1
    rw [or_iff_right hnot]
    simp only [splitBlock, if_neg hlarge] at hpass
    refine take_halts_iff_of_header hundisturbed hmet hheap hptr hhead
      hstart hfull h hpass ?_ ?_ ?_ (Or.inl rfl)
    · intro x hx
      exact readWord_writeWord_of_apart (by omega)
    · rw [readWord_writeWord (by omega)]
      omega
    · rw [nextBlock, readWord_writeWord_of_apart (by omega), hown, hnext]

end Take

section Walk

variable (hundisturbed : Undisturbed mem cell met) (hmet : Met mem met)
  (hheap : ∀ b ∈ met, mmStart ≤ b → nextBlock mem b ∈ met)

/-- The loop that merges, within `brickos_malloc`. -/
theorem mallocPass_of_rowPass {a b : ℕ × ℕ × Memory}
    (hpass : rowPass cell ptr a = .inl b) :
    mallocPass mmStart cell size (.merging ptr a.1 a.2.1, a.2.2) =
      .inl (.merging ptr b.1 b.2.1, b.2.2) := by
  obtain ⟨len, nptr, mem⟩ := a
  simp only [rowPass] at hpass
  split_ifs at hpass with hfree
  cases hpass
  simp only [mallocPass, if_pos hfree]

theorem mallocPass_free (habove : mmStart ≤ ptr)
    (hfree : mem'.readWord ptr = 0) :
    mallocPass mmStart cell size (.walking ptr, mem') =
      .inl (.merging ptr (mem'.readWord (ptr + 2))
        (nextPtr ptr (mem'.readWord (ptr + 2))), mem') := by
  simp only [mallocPass, if_neg (Nat.not_lt.mpr habove), if_pos hfree]

variable (mmStart size) in
include hundisturbed hmet in
/-- The row of a free block is taken in. -/
theorem reaches_row_end (hptr : ptr ∈ met) (hhead : mem.readWord ptr = 0)
    (hfull : FullRun mem ptr n) (h : Merged mem cell met first mem') :
    ∃ mem'', Reaches (mallocPass mmStart cell size)
        (.merging ptr (mem'.readWord (ptr + 2))
          (nextPtr ptr (mem'.readWord (ptr + 2))), mem')
        (.merging ptr (runLen mem ptr n) (block mem ptr (n + 1)), mem'') ∧
      Merged mem cell met (firstAfter mem first ptr n) mem'' ∧
      mem''.readWord (ptr + 2) = runLen mem ptr n := by
  obtain ⟨t, hrow, htaken⟩ := h.inRow hptr
  obtain ⟨mem'', hreach, hlast, hcell⟩ := hrow.reaches hundisturbed hmet
    hptr hhead hfull (h.first.trans htaken.symm)
  refine ⟨mem'', ?_, hlast.merged hhead hfull hcell, hlast.own⟩
  rw [hrow.own, nextPtr_runLen]
  exact Reaches.nested
    (f := fun a => (MallocPoint.merging ptr a.1 a.2.1, a.2.2))
    (fun _ _ => mallocPass_of_rowPass) hreach

include hundisturbed hmet in
theorem not_halts_of_endless (hptr : ptr ∈ met)
    (hhead : mem.readWord ptr = 0) (hendless : ∀ n, FreeRun mem ptr n)
    (h : Merged mem cell met first mem') :
    ¬ Halts (mallocPass mmStart cell size)
      (.merging ptr (mem'.readWord (ptr + 2))
        (nextPtr ptr (mem'.readWord (ptr + 2))), mem') := by
  obtain ⟨t, hrow, -⟩ := h.inRow hptr
  have hmerges := hrow.endless hundisturbed hmet hptr hhead hendless
  rw [hrow.own, nextPtr_runLen]
  exact not_halts_nested
    (f := fun a => (MallocPoint.merging ptr a.1 a.2.1, a.2.2))
    (fun _ _ => mallocPass_of_rowPass) hmerges

/-- The pass behind a row that is too short. -/
theorem mallocPass_small {len nptr : ℕ} (hused : mem'.readWord nptr ≠ 0)
    (hsmall : len ≤ size) :
    mallocPass mmStart cell size (.merging ptr len nptr, mem') =
      .inl (.walking nptr, mem') := by
  simp only [mallocPass, if_neg hused, if_neg (Nat.not_lt.mpr hsmall)]

theorem mallocPass_used (habove : mmStart ≤ ptr)
    (hused : mem'.readWord ptr ≠ 0) :
    mallocPass mmStart cell size (.walking ptr, mem') =
      .inl (.walking (nextBlock mem' ptr), mem') := by
  simp only [mallocPass, if_neg (Nat.not_lt.mpr habove), if_neg hused,
    nextBlock]

theorem mallocPass_outside (hbelow : ptr < mmStart) :
    mallocPass mmStart cell size (.walking ptr, mem') = .inr (0, mem') := by
  simp only [mallocPass, if_pos hbelow]

/-- The length of a block in use is not rewritten. -/
theorem Merged.next_used (h : Merged mem cell met first mem')
    (hptr : ptr ∈ met) (hused : mem.readWord ptr ≠ 0) :
    nextBlock mem' ptr = nextBlock mem ptr := by
  obtain ⟨k, hlen, hrow⟩ := h.len ptr hptr
  unfold nextBlock
  rcases hrow with rfl | ⟨hfree, -⟩
  · rw [hlen, runLen]
  · exact absurd hfree hused

include hundisturbed hmet hheap in
theorem malloc_halts_of_rowsEnd (hends : RowsEnd mem mmStart size first ptr) :
    ∀ {mem' : Memory}, Merged mem cell met first mem' → ptr ∈ met →
      Halts (mallocPass mmStart cell size) (.walking ptr, mem') := by
  induction hends with
  | outside hbelow =>
      intro mem' _ _
      exact halts_of_result (mallocPass_outside hbelow)
  | @used first ptr hused _ ih =>
      intro mem' h hptr
      rcases Nat.lt_or_ge ptr mmStart with hbelow | habove
      · exact halts_of_result (mallocPass_outside hbelow)
      · have hthere : mem'.readWord ptr ≠ 0 := by
          rw [h.type ptr hptr]
          exact hused
        rw [halts_iff_of_next (mallocPass_used habove hthere),
          h.next_used hptr hused]
        exact ih h (hheap ptr hptr habove)
  | @small first ptr n hhead hfull hsmall _ ih =>
      intro mem' h hptr
      rcases Nat.lt_or_ge ptr mmStart with hbelow | habove
      · exact halts_of_result (mallocPass_outside hbelow)
      · have hfree : mem'.readWord ptr = 0 := by rw [h.type ptr hptr, hhead]
        obtain ⟨mem'', hreach, hmerged, -⟩ :=
          reaches_row_end mmStart size hundisturbed hmet hptr hhead hfull h
        have hused := hmerged.used_behind hmet hptr hhead hfull
        rw [halts_iff_of_next (mallocPass_free habove hfree)]
        rw [halts_iff_of_reaches hreach,
          halts_iff_of_next (mallocPass_small hused hsmall)]
        exact ih hmerged (hmet.block hptr hhead hfull.free)
  | @fits first ptr n hhead hfull hfits htake =>
      intro mem' h hptr
      rcases Nat.lt_or_ge ptr mmStart with hbelow | habove
      · exact halts_of_result (mallocPass_outside hbelow)
      · have hfree : mem'.readWord ptr = 0 := by rw [h.type ptr hptr, hhead]
        obtain ⟨mem'', hreach, hmerged, hown⟩ :=
          reaches_row_end mmStart size hundisturbed hmet hptr hhead hfull h
        rw [halts_iff_of_next (mallocPass_free habove hfree)]
        rw [halts_iff_of_reaches hreach,
          take_halts_iff hundisturbed hmet hheap hptr hhead habove hfull
            hmerged hown hfits]
        exact htake

include hundisturbed hmet hheap in
/-- `brickos_malloc` terminates where the rows of the image end. -/
theorem malloc_halts_iff (h : Merged mem cell met first mem')
    (hptr : ptr ∈ met) :
    Halts (mallocPass mmStart cell size) (.walking ptr, mem') ↔
      RowsEnd mem mmStart size first ptr := by
  refine ⟨?_, fun hends =>
    malloc_halts_of_rowsEnd hundisturbed hmet hheap hends h hptr⟩
  intro hhalts
  by_contra hends
  refine not_halts_of_progress (S := {state | ∃ first ptr mem',
    Merged mem cell met first mem' ∧ ptr ∈ met ∧
      ¬ RowsEnd mem mmStart size first ptr ∧
        (MallocPoint.walking ptr, mem') = state})
    ⟨first, ptr, mem', h, hptr, hends, rfl⟩ ?_ hhalts
  rintro _ ⟨first, ptr, mem', h, hptr, hends, rfl⟩ hhalts
  have habove : mmStart ≤ ptr :=
    Nat.not_lt.mp fun hbelow => hends (.outside hbelow)
  by_cases hhead : mem.readWord ptr = 0
  · have hfree : mem'.readWord ptr = 0 := by rw [h.type ptr hptr, hhead]
    have hfirst : mallocPass mmStart cell size (.walking ptr, mem') = _ :=
      mallocPass_free habove hfree
    rw [halts_iff_of_next hfirst] at hhalts
    rcases fullRun_or_endless mem ptr with ⟨n, hfull⟩ | hendless
    · obtain ⟨mem'', hreach, hmerged, hown⟩ :=
        reaches_row_end mmStart size hundisturbed hmet hptr hhead hfull h
      have hend := hmet.block hptr hhead hfull.free
      have hused := hmerged.used_behind hmet hptr hhead hfull
      rcases Nat.lt_or_ge size (runLen mem ptr n) with hfits | hsmall
      · rw [halts_iff_of_reaches hreach, take_halts_iff hundisturbed hmet
          hheap hptr hhead habove hfull hmerged hown hfits] at hhalts
        exact absurd (.fits hhead hfull hfits hhalts) hends
      · exact ⟨_, _, hfirst, hreach.tail (mallocPass_small hused hsmall), _,
          _, mem'', hmerged, hend,
          fun hnext => hends (.small hhead hfull hsmall hnext), rfl⟩
    · exact absurd hhalts
        (not_halts_of_endless hundisturbed hmet hptr hhead hendless h)
  · have hused : mem'.readWord ptr ≠ 0 := by rwa [h.type ptr hptr]
    have hpass : mallocPass mmStart cell size (.walking ptr, mem') = _ :=
      mallocPass_used habove hused
    rw [h.next_used hptr hhead] at hpass
    exact ⟨_, _, hpass, .refl, first, _, mem', h, hheap ptr hptr habove,
      fun hnext => hends (.used hhead hnext), rfl⟩

end Walk

end Malloc

section Free

variable (mem : Memory) (mmStart addr : ℕ)

/-- The chain leads from the block below the heap, or to the block that is
freed, and the row behind that one ends. -/
def FreeEnds (ptr : ℕ) : Prop :=
  ∃ n, (∀ k < n, block mem ptr k + 4 ≠ addr) ∧
    (block mem ptr n < mmStart ∨ block mem ptr n + 4 = addr ∧
      ∃ j, FullRun (mem.writeWord (block mem ptr n) 0) (block mem ptr n) j)

variable {mem mmStart addr} {cell ptr : ℕ}

/-- The row behind the block that is freed. -/
theorem inRow_markFree {met : Set ℕ}
    (hundisturbed : Undisturbed (mem.writeWord ptr 0) cell met)
    (hptr : ptr ∈ met) :
    InRow (mem.writeWord ptr 0) met ((markFree cell ptr mem).readWord cell)
      ptr 0 (markFree cell ptr mem) := by
  have hkept : ∀ b ∈ met, ∀ x, x = b ∨ x = b + 2 →
      (markFree cell ptr mem).readWord x =
        (mem.writeWord ptr 0).readWord x := by
    intro b hb x hx
    have hapart := hundisturbed.apart b hb
    unfold Apart at hapart
    simp only [markFree]
    split_ifs
    · exact readWord_writeWord_of_apart (by omega)
    · rfl
  refine ⟨?_, ?_, ?_, ?_⟩
  · exact fun b hb => hkept b hb b (Or.inl rfl)
  · exact fun b hb _ => ⟨0, hkept b hb (b + 2) (Or.inr rfl), Or.inl rfl⟩
  · exact hkept ptr hptr (ptr + 2) (Or.inr rfl)
  · intro i hpos hi
    omega

/-- The loop that merges, within `brickos_free`. -/
theorem freePass_of_rowPass {a b : ℕ × ℕ × Memory}
    (hpass : rowPass cell ptr a = .inl b) :
    freePass mmStart cell addr (.merging ptr a.1 a.2.1, a.2.2) =
      .inl (.merging ptr b.1 b.2.1, b.2.2) := by
  obtain ⟨len, nptr, mem⟩ := a
  simp only [rowPass] at hpass
  split_ifs at hpass with hfree
  cases hpass
  simp only [freePass, if_pos hfree]

theorem free_row_halts_iff (hbound : ptr < 65536)
    (hundisturbed : Undisturbed (mem.writeWord ptr 0) cell
      (metFrom (mem.writeWord ptr 0) 65536 ptr)) :
    Halts (freePass mmStart cell addr)
        (.merging ptr (mem.readWord (ptr + 2)) (nextBlock mem ptr),
          markFree cell ptr mem) ↔
      ∃ j, FullRun (mem.writeWord ptr 0) ptr j := by
  have hmet : Met (mem.writeWord ptr 0)
      (metFrom (mem.writeWord ptr 0) 65536 ptr) := met_metFrom hbound
  have hptr : ptr ∈ metFrom (mem.writeWord ptr 0) 65536 ptr :=
    self_mem_metFrom
  have hhead : (mem.writeWord ptr 0).readWord ptr = 0 :=
    readWord_writeWord (by omega)
  have hlen : mem.readWord (ptr + 2) =
      runLen (mem.writeWord ptr 0) ptr 0 :=
    (readWord_writeWord_of_apart (by omega)).symm
  have hnext : nextBlock mem ptr = block (mem.writeWord ptr 0) ptr 1 := by
    rw [nextBlock, hlen, nextPtr_runLen]
  have hrow := inRow_markFree hundisturbed hptr
  rw [hlen, hnext]
  constructor
  · intro hhalts
    rcases fullRun_or_endless (mem.writeWord ptr 0) ptr with hfull | hendless
    · exact hfull
    · have hmerges := hrow.endless hundisturbed hmet hptr hhead hendless
      exact absurd hhalts (not_halts_nested
        (f := fun a => (FreePoint.merging ptr a.1 a.2.1, a.2.2))
        (fun _ _ => freePass_of_rowPass) hmerges)
  · rintro ⟨j, hfull⟩
    have hnone : firstAfter (mem.writeWord ptr 0)
        ((markFree cell ptr mem).readWord cell) ptr 0 =
          (markFree cell ptr mem).readWord cell := by
      simp [firstAfter]
    obtain ⟨mem'', hreach, hlast, -⟩ := hrow.reaches hundisturbed hmet hptr
      hhead hfull hnone.symm
    have hfollows : Reaches (freePass mmStart cell addr)
        (.merging ptr (runLen (mem.writeWord ptr 0) ptr 0)
          (block (mem.writeWord ptr 0) ptr 1), markFree cell ptr mem)
        (.merging ptr (runLen (mem.writeWord ptr 0) ptr j)
          (block (mem.writeWord ptr 0) ptr (j + 1)), mem'') :=
      Reaches.nested
        (f := fun a => (FreePoint.merging ptr a.1 a.2.1, a.2.2))
        (fun _ _ => freePass_of_rowPass) hreach
    rw [halts_iff_of_reaches hfollows]
    have hused : mem''.readWord (block (mem.writeWord ptr 0) ptr (j + 1)) ≠
        0 := by
      rw [hlast.type _ (hmet.block hptr hhead hfull.free)]
      exact hfull.used
    exact halts_of_result (r := mem'') (by simp only [freePass, if_neg hused])

theorem freePass_outside (hbelow : ptr < mmStart) :
    freePass mmStart cell addr (.walking ptr, mem) = .inr mem := by
  simp only [freePass, if_pos hbelow]

theorem freePass_found (habove : mmStart ≤ ptr) (hfound : ptr + 4 = addr) :
    freePass mmStart cell addr (.walking ptr, mem) =
      .inl (.merging ptr (mem.readWord (ptr + 2)) (nextBlock mem ptr),
        markFree cell ptr mem) := by
  simp only [freePass, if_neg (Nat.not_lt.mpr habove), if_pos hfound,
    nextBlock]

theorem freePass_other (habove : mmStart ≤ ptr) (hother : ptr + 4 ≠ addr) :
    freePass mmStart cell addr (.walking ptr, mem) =
      .inl (.walking (nextBlock mem ptr), mem) := by
  simp only [freePass, if_neg (Nat.not_lt.mpr habove), if_neg hother,
    nextBlock]

theorem FreeEnds.of_next (hother : ptr + 4 ≠ addr)
    (hnext : FreeEnds mem mmStart addr (nextBlock mem ptr)) :
    FreeEnds mem mmStart addr ptr := by
  obtain ⟨n, hbefore, hend⟩ := hnext
  refine ⟨n + 1, ?_, hend⟩
  intro k hk
  cases k with
  | zero => exact hother
  | succ k => exact hbefore k (by omega)

/-- The walk of `brickos_free`, behind the blocks of the chain that are not
the one to be freed. -/
theorem free_halts_iff {start : ℕ} (hstart : start < 65536)
    (hundisturbed : ∀ p ∈ metFrom mem mmStart start, p + 4 = addr →
      Undisturbed (mem.writeWord p 0) cell
        (metFrom (mem.writeWord p 0) 65536 p))
    (hptr : ptr ∈ metFrom mem mmStart start) :
    Halts (freePass mmStart cell addr) (.walking ptr, mem) ↔
      FreeEnds mem mmStart addr ptr := by
  have hbound : ∀ b ∈ metFrom mem mmStart start, b < 65536 :=
    (met_metFrom hstart).bound
  constructor
  · intro hhalts
    by_contra hends
    refine not_halts_of_progress (S := {state | ∃ ptr ∈
      metFrom mem mmStart start, ¬ FreeEnds mem mmStart addr ptr ∧
        (FreePoint.walking ptr, mem) = state}) ⟨ptr, hptr, hends, rfl⟩ ?_
      hhalts
    rintro _ ⟨ptr, hptr, hends, rfl⟩ hhalts
    have habove : mmStart ≤ ptr := Nat.not_lt.mp fun hbelow =>
      hends ⟨0, fun k hk => absurd hk (Nat.not_lt_zero k), Or.inl hbelow⟩
    by_cases hfound : ptr + 4 = addr
    · rw [halts_iff_of_next (freePass_found habove hfound),
        free_row_halts_iff (hbound ptr hptr)
          (hundisturbed ptr hptr hfound)] at hhalts
      exact absurd ⟨0, fun k hk => absurd hk (Nat.not_lt_zero k),
        Or.inr ⟨hfound, hhalts⟩⟩ hends
    · exact ⟨_, _, freePass_other habove hfound, .refl, _,
        next_mem_metFrom hptr (Or.inl habove),
        fun hnext => hends (hnext.of_next hfound), rfl⟩
  · rintro ⟨n, hbefore, hend⟩
    induction n generalizing ptr with
    | zero =>
        rcases Nat.lt_or_ge ptr mmStart with hbelow | habove
        · exact halts_of_result (freePass_outside hbelow)
        · rcases hend with hbelow | ⟨hfound, hrow⟩
          · exact absurd habove (Nat.not_le.mpr hbelow)
          · rw [halts_iff_of_next (freePass_found habove hfound),
              free_row_halts_iff (hbound ptr hptr)
                (hundisturbed ptr hptr hfound)]
            exact hrow
    | succ n ih =>
        rcases Nat.lt_or_ge ptr mmStart with hbelow | habove
        · exact halts_of_result (freePass_outside hbelow)
        · have hother := hbefore 0 (by omega)
          rw [halts_iff_of_next (freePass_other habove hother)]
          exact ih (next_mem_metFrom hptr (Or.inl habove))
            (fun k hk => hbefore (k + 1) (by omega)) hend

end Free

section Links

variable (mem : Memory)

/-- Where the link of the free block is that this one leads to. -/
def freeLink (link : ℕ) : ℕ :=
  (mem.readWord link + 6) % 65536

/-- The bytes up to the next block of bibo. -/
def biboSize (ptr : ℕ) : ℕ :=
  (mem.readWord (ptr + 2) + 65536 - ptr) % 65536

/-- Where the next block of bibo begins. -/
def biboNext (ptr : ℕ) : ℕ :=
  clearFlag (mem.readWord (ptr + 2))

variable {mem}

theorem brickosDumpPass_halts_iff (mmStart ptr : ℕ) :
    Halts (brickosDumpPass mmStart mem) ptr ↔
      ∃ n, block mem ptr n < mmStart := by
  apply @halts_iff_stops _ _ (brickosDumpPass mmStart mem) _ id
    (nextBlock mem) (fun ptr => ptr < mmStart)
  · intro ptr hbelow
    exact ⟨(), if_pos hbelow⟩
  · intro ptr habove
    exact if_neg habove

theorem biboDumpPass_halts_iff (mmStart ptr : ℕ) :
    Halts (biboDumpPass mmStart mem) ptr ↔
      ∃ n, (((biboNext mem)^[n] ptr : ℕ) : ℤ) < mmStart - 2 := by
  apply @halts_iff_stops _ _ (biboDumpPass mmStart mem) _ id
    (biboNext mem) (fun ptr => (ptr : ℤ) < mmStart - 2)
  · intro ptr hbelow
    exact ⟨(), if_pos hbelow⟩
  · intro ptr habove
    exact if_neg habove

theorem placePass_halts_iff (addr link : ℕ) :
    Halts (placePass addr mem) link ↔
      ∃ n, mem.readWord ((freeLink mem)^[n] link) = 0 ∨
        addr ≤ mem.readWord ((freeLink mem)^[n] link) := by
  apply @halts_iff_stops _ _ (placePass addr mem) _ id (freeLink mem)
    (fun link => mem.readWord link = 0 ∨ addr ≤ mem.readWord link)
  · intro link hend
    refine ⟨(link, mem.readWord link), if_neg ?_⟩
    rintro ⟨hlinked, hbelow⟩
    rcases hend with hzero | habove
    · exact hlinked hzero
    · exact absurd hbelow (Nat.not_lt.mpr habove)
  · intro link hgoes
    rw [not_or, Nat.not_le] at hgoes
    exact if_pos hgoes

theorem biboMallocPass_halts_iff (size link : ℕ) :
    Halts (biboMallocPass size mem) link ↔
      ∃ n, mem.readWord ((freeLink mem)^[n] link) = 0 ∨
        size + 4 ≤ biboSize mem (mem.readWord ((freeLink mem)^[n] link)) := by
  apply @halts_iff_stops _ _ (biboMallocPass size mem) _ id (freeLink mem)
    (fun link => mem.readWord link = 0 ∨
      size + 4 ≤ biboSize mem (mem.readWord link))
  · intro link hend
    simp only [id, biboMallocPass]
    by_cases hzero : mem.readWord link = 0
    · exact ⟨(0, mem), if_pos hzero⟩
    · have hlarge := hend.resolve_left hzero
      unfold biboSize at hlarge
      rw [if_neg hzero, if_pos hlarge]
      exact ⟨_, rfl⟩
  · intro link hgoes
    rw [not_or] at hgoes
    have hsmall := hgoes.2
    unfold biboSize at hsmall
    simp only [id, biboMallocPass, if_neg hgoes.1, if_neg hsmall, freeLink]

end Links

/-- The functions that walk the heap, with their arguments. -/
inductive HeapWalker where
  | brickosMalloc (size : ℕ)
  | brickosFree (addr : ℕ)
  | brickosDump
  | biboMalloc (size : ℕ)
  | biboFree (addr : ℕ)
  | biboDump

namespace HeapWalker

variable (mmStart cell : ℕ) (mem : Memory)

/-- `bibo_free` only walks for a block without a free block before it. -/
def biboEnqueues (addr : ℕ) : Prop :=
  addr ≠ 0 ∧ mem.readWord ((addr + 65536 - 6) % 65536 + 2) % 2 = 0

/-- The memory in which `bibo_free` walks. -/
def biboEntered (addr : ℕ) : Memory :=
  mem.writeWord ((addr + 65536 - 6) % 65536 + 4) 0

def Terminates : HeapWalker → Prop
  | brickosMalloc size => mmStart ≠ 0 →
      Halts (mallocPass mmStart cell ((size + 1) / 2)) (.walking mmStart, mem)
  | brickosFree addr => mmStart ≠ 0 →
      Halts (freePass mmStart cell addr) (.walking mmStart, mem)
  | brickosDump => mmStart ≠ 0 → Halts (brickosDumpPass mmStart mem) mmStart
  | biboMalloc size => Halts (biboMallocPass (roundSize size) mem) cell
  | biboFree addr => biboEnqueues mem addr →
      Halts (placePass ((addr + 65536 - 6) % 65536) (biboEntered mem addr))
        cell
  | biboDump => mmStart ≠ 0 →
      Halts (biboDumpPass mmStart mem) ((mmStart + 65534) % 65536)

/-- What the walker writes on the way lies apart from the headers it meets:
the cell in none of them, and no two of them in each other, where one is a
free block's. -/
def WritesApart : HeapWalker → Prop
  | brickosMalloc _ => Undisturbed mem cell (metFrom mem mmStart mmStart)
  | brickosFree addr => ∀ ptr ∈ metFrom mem mmStart mmStart, ptr + 4 = addr →
      Undisturbed (mem.writeWord ptr 0) cell
        (metFrom (mem.writeWord ptr 0) 65536 ptr)
  | _ => True

/-- The image leads the walker to an end. -/
def Safe : HeapWalker → Prop
  | brickosMalloc size => mmStart ≠ 0 →
      RowsEnd mem mmStart ((size + 1) / 2) (mem.readWord cell) mmStart
  | brickosFree addr => mmStart ≠ 0 → FreeEnds mem mmStart addr mmStart
  | brickosDump => mmStart ≠ 0 → ∃ n, block mem mmStart n < mmStart
  | biboMalloc size => ∃ n, mem.readWord ((freeLink mem)^[n] cell) = 0 ∨
      roundSize size + 4 ≤
        biboSize mem (mem.readWord ((freeLink mem)^[n] cell))
  | biboFree addr => biboEnqueues mem addr →
      ∃ n, (biboEntered mem addr).readWord
          ((freeLink (biboEntered mem addr))^[n] cell) = 0 ∨
        (addr + 65536 - 6) % 65536 ≤ (biboEntered mem addr).readWord
          ((freeLink (biboEntered mem addr))^[n] cell)
  | biboDump => mmStart ≠ 0 → ∃ n,
      (((biboNext mem)^[n] ((mmStart + 65534) % 65536) : ℕ) : ℤ) <
        mmStart - 2

section Results

variable {mmStart cell : ℕ} {mem : Memory}

theorem terminates_of_brickosMalloc {size : ℕ} {taken : ℕ × Memory}
    (htaken : BrickEmu.brickosMalloc mmStart cell size mem = some taken) :
    (brickosMalloc size).Terminates mmStart cell mem :=
  fun hstart => ⟨taken, brickosMalloc_ends hstart htaken⟩

theorem terminates_of_brickosFree {addr : ℕ} {mem' : Memory}
    (hfreed : BrickEmu.brickosFree mmStart cell addr mem = some mem') :
    (brickosFree addr).Terminates mmStart cell mem :=
  fun hstart => ⟨mem', brickosFree_ends hstart hfreed⟩

theorem terminates_of_biboMalloc {size : ℕ} {taken : ℕ × Memory}
    (htaken : BrickEmu.biboMalloc cell size mem = some taken) :
    (biboMalloc size).Terminates mmStart cell mem :=
  ⟨taken, biboMallocFrom_ends linkLimit htaken⟩

theorem terminates_of_biboFree {addr : ℕ} {mem' : Memory}
    (hfreed : BrickEmu.biboFree cell addr mem = some mem') :
    (biboFree addr).Terminates mmStart cell mem := by
  rintro ⟨hpos, heven⟩
  have hflag : ¬ mem.readWord ((addr + 65536 - 6) % 65536 + 2) % 2 = 1 := by
    omega
  simp only [BrickEmu.biboFree, if_neg hpos, if_neg hflag] at hfreed
  cases hplace : findPlace ((addr + 65536 - 6) % 65536)
      (mem.writeWord ((addr + 65536 - 6) % 65536 + 4) 0) linkLimit cell with
  | none =>
      rw [hplace] at hfreed
      cases hfreed
  | some place => exact ⟨place, findPlace_ends linkLimit hplace⟩

end Results

/-- Nothing has been merged in front of the walk. -/
theorem merged_self (cell : ℕ) (met : Set ℕ) (mem : Memory) :
    Merged mem cell met (mem.readWord cell) mem :=
  ⟨fun _ _ => rfl, fun _ _ => ⟨0, rfl, Or.inl rfl⟩, rfl⟩

/-- Two free blocks and one in use, which reaches the end of the memory. -/
def tightHeap : Memory :=
  ofWords [(0, 1), (0x7ffe, 0x8000), (0x8002, 4), (0x800e, 6), (0x801c, 1),
    (0x801e, 0x3ff0)]

end HeapWalker

end BrickEmu
