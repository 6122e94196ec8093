import BrickEmu.HeapWalks

/-!
# The chain of blocks in a heap image

The length of a block says where the next one begins.  Both functions of
brickOS merge a row of free blocks into its first block, and write the length
of that block and the cell `mm_first_free`.  The chain stays what it was in
the image where these words lie in no header of a block that is met; then a
row ends in the walk exactly where it ends in the image.
-/

namespace BrickEmu

open Memory Loop

theorem nextPtr_lt (ptr len : ℕ) : nextPtr ptr len < 65536 :=
  Nat.mod_lt _ (by omega)

section Chain

variable (mem : Memory)

/-- Where the next block begins. -/
def nextBlock (ptr : ℕ) : ℕ :=
  nextPtr ptr (mem.readWord (ptr + 2))

/-- The block that comes the given number of blocks behind the first. -/
def block (ptr n : ℕ) : ℕ :=
  (nextBlock mem)^[n] ptr

/-- The given number of blocks behind the first are free. -/
def FreeRun (ptr n : ℕ) : Prop :=
  ∀ i, 1 ≤ i → i ≤ n → mem.readWord (block mem ptr i) = 0

/-- The row of free blocks behind the first ends at a block in use. -/
structure FullRun (ptr n : ℕ) : Prop where
  free : FreeRun mem ptr n
  used : mem.readWord (block mem ptr (n + 1)) ≠ 0

/-- The length of a block that has taken in the given number of blocks. -/
def runLen (ptr : ℕ) : ℕ → ℕ
  | 0 => mem.readWord (ptr + 2)
  | n + 1 =>
      (runLen ptr n + (2 + mem.readWord (block mem ptr (n + 1) + 2))) % 65536

/-- The cell `mm_first_free` after the block has taken in its row. -/
def firstAfter (first ptr n : ℕ) : ℕ :=
  if ∃ i < n, block mem ptr (i + 1) = first then ptr else first

variable {mem} {ptr n t j first : ℕ}

theorem block_block (ptr m n : ℕ) :
    block mem (block mem ptr m) n = block mem ptr (m + n) := by
  unfold block
  rw [Nat.add_comm m n, Function.iterate_add_apply]

theorem block_succ (ptr n : ℕ) :
    block mem ptr (n + 1) = nextBlock mem (block mem ptr n) :=
  Function.iterate_succ_apply' (nextBlock mem) n ptr

theorem runLen_lt (ptr n : ℕ) : runLen mem ptr n < 65536 := by
  cases n with
  | zero => exact readWord_lt mem (ptr + 2)
  | succ n => exact Nat.mod_lt _ (by omega)

theorem nextPtr_runLen (ptr n : ℕ) :
    nextPtr ptr (runLen mem ptr n) = block mem ptr (n + 1) := by
  induction n with
  | zero => rfl
  | succ n ih =>
      rw [block_succ, ← ih, nextBlock, ih]
      simp only [runLen, nextPtr] at ih ⊢
      rw [← ih]
      omega

/-- A row may be taken in by parts. -/
theorem runLen_append (ptr t j : ℕ) :
    runLen mem ptr (t + 1 + j) =
      (runLen mem ptr t + (2 + runLen mem (block mem ptr (t + 1)) j)) %
        65536 := by
  induction j with
  | zero => rfl
  | succ j ih =>
      have hblock : block mem (block mem ptr (t + 1)) (j + 1) =
          block mem ptr (t + 1 + j + 1) := block_block ptr (t + 1) (j + 1)
      rw [← Nat.add_assoc]
      simp only [runLen, ih, hblock]
      omega

theorem FreeRun.append (hfree : FreeRun mem ptr t)
    (hnext : mem.readWord (block mem ptr (t + 1)) = 0)
    (hrest : FreeRun mem (block mem ptr (t + 1)) j) :
    FreeRun mem ptr (t + 1 + j) := by
  intro i hpos hle
  rcases Nat.lt_trichotomy i (t + 1) with hlt | rfl | hgt
  · exact hfree i hpos (by omega)
  · exact hnext
  · have hthere := hrest (i - (t + 1)) (by omega) (by omega)
    rw [block_block, Nat.add_sub_cancel' hgt.le] at hthere
    exact hthere

theorem FullRun.le (hfull : FullRun mem ptr n) (hfree : FreeRun mem ptr t) :
    t ≤ n := by
  by_contra hmore
  exact hfull.used (hfree (n + 1) (by omega) (by omega))

/-- A row does not come back to its first block. -/
theorem FullRun.not_self (hfull : FullRun mem ptr n) (hpos : 1 ≤ j)
    (hle : j ≤ n) : block mem ptr j ≠ ptr := by
  intro hback
  have hround : block mem ptr (n + 1) = block mem ptr (n + 1 - j) := by
    have hsplit : block mem (block mem ptr j) (n + 1 - j) =
        block mem ptr (j + (n + 1 - j)) := block_block ptr j (n + 1 - j)
    rw [hback, Nat.add_sub_cancel' (by omega)] at hsplit
    exact hsplit.symm
  apply hfull.used
  rw [hround]
  exact hfull.free _ (by omega) (by omega)

/-- The end of a row is the row of the block there. -/
theorem FullRun.drop (hfull : FullRun mem ptr n) (hle : j ≤ n) :
    FullRun mem (block mem ptr j) (n - j) := by
  refine ⟨?_, ?_⟩
  · intro i hpos hi
    rw [block_block]
    exact hfull.free _ (by omega) (by omega)
  · rw [block_block]
    have hend : j + (n - j + 1) = n + 1 := by omega
    rw [hend]
    exact hfull.used

theorem FullRun.unique (h : FullRun mem ptr n) (h' : FullRun mem ptr t) :
    n = t :=
  Nat.le_antisymm (h'.le h.free) (h.le h'.free)

/-- Merging one more block, with the row it has taken in before. -/
theorem firstAfter_step
    (hnot : ∀ i, 1 ≤ i → i ≤ j → block mem ptr (t + 1 + i) ≠ first) :
    (if block mem ptr (t + 1) = firstAfter mem first ptr t then ptr
      else firstAfter mem first ptr t) = firstAfter mem first ptr (t + 1 + j) := by
  unfold firstAfter
  by_cases hbefore : ∃ i < t, block mem ptr (i + 1) = first
  · have hlater : ∃ i < t + 1 + j, block mem ptr (i + 1) = first := by
      obtain ⟨i, hi, hfirst⟩ := hbefore
      exact ⟨i, by omega, hfirst⟩
    rw [if_pos hbefore, if_pos hlater, ite_self]
  · simp only [if_neg hbefore]
    by_cases hnow : block mem ptr (t + 1) = first
    · have hlater : ∃ i < t + 1 + j, block mem ptr (i + 1) = first :=
        ⟨t, by omega, hnow⟩
      rw [if_pos hnow, if_pos hlater]
    · have hnever : ¬ ∃ i < t + 1 + j, block mem ptr (i + 1) = first := by
        rintro ⟨i, hi, hfirst⟩
        rcases Nat.lt_trichotomy i t with hlt | rfl | hgt
        · exact hbefore ⟨i, hlt, hfirst⟩
        · exact hnow hfirst
        · have hthere := hnot (i - t) (by omega) (by omega)
          have hplace : t + 1 + (i - t) = i + 1 := by omega
          rw [hplace] at hthere
          exact hthere hfirst
      rw [if_neg hnow, if_neg hnever]

end Chain

/-- The header of the block does not touch the cell. -/
def Apart (cell b : ℕ) : Prop :=
  cell + 1 < b ∨ b + 4 ≤ cell

/-- The blocks that are met stay where they are when free blocks are merged:
the cell lies in none of their headers, and the header of a free block
overlaps no other. -/
structure Undisturbed (mem : Memory) (cell : ℕ) (met : Set ℕ) : Prop where
  apart : ∀ b ∈ met, Apart cell b
  headers : ∀ b ∈ met, mem.readWord b = 0 →
    ∀ b' ∈ met, b' = b ∨ b' + 4 ≤ b ∨ b + 4 ≤ b'

/-- The blocks of a chain that are met: it goes on behind every free block. -/
structure Met (mem : Memory) (met : Set ℕ) : Prop where
  next : ∀ b ∈ met, mem.readWord b = 0 → nextBlock mem b ∈ met
  bound : ∀ b ∈ met, b < 65536

section Rows

variable {mem mem' : Memory} {cell first ptr n t : ℕ} {met : Set ℕ}

theorem Met.block (h : Met mem met) (hptr : ptr ∈ met)
    (hhead : mem.readWord ptr = 0) (hfree : FreeRun mem ptr n) :
    block mem ptr (n + 1) ∈ met := by
  induction n with
  | zero => exact h.next ptr hptr hhead
  | succ n ih =>
      rw [block_succ]
      refine h.next _ (ih fun i hpos hi => hfree i hpos (by omega)) ?_
      exact hfree (n + 1) (by omega) le_rfl

/-- The length of the block has been rewritten for a part of its row, and
`mm_first_free` is not in that part. -/
def Rewritten (mem mem' : Memory) (first b : ℕ) : Prop :=
  ∃ n, mem'.readWord (b + 2) = runLen mem b n ∧
    (n = 0 ∨ mem.readWord b = 0 ∧ FullRun mem b n ∧
      ∀ i, 1 ≤ i → i ≤ n → block mem b i ≠ first)

/-- The image between two rows. -/
structure Merged (mem : Memory) (cell : ℕ) (met : Set ℕ) (first : ℕ)
    (mem' : Memory) : Prop where
  type : ∀ b ∈ met, mem'.readWord b = mem.readWord b
  len : ∀ b ∈ met, Rewritten mem mem' first b
  first : mem'.readWord cell = first

/-- The image while a block takes in its row. -/
structure InRow (mem : Memory) (met : Set ℕ) (first ptr t : ℕ)
    (mem' : Memory) : Prop where
  type : ∀ b ∈ met, mem'.readWord b = mem.readWord b
  len : ∀ b ∈ met, b ≠ ptr → Rewritten mem mem' first b
  own : mem'.readWord (ptr + 2) = runLen mem ptr t
  free : FreeRun mem ptr t

/-- The loop that merges. -/
def rowPass (cell ptr : ℕ) :
    ℕ × ℕ × Memory → (ℕ × ℕ × Memory) ⊕ Unit
  | (len, nptr, mem) =>
      if mem.readWord nptr = 0 then
        let (len, mem) := mergeOne cell ptr len nptr mem
        .inl (len, nextPtr ptr len, mem)
      else .inr ()

theorem moveCell_of_apart {nptr x : ℕ}
    (hapart : x + 2 ≤ cell ∨ cell + 2 ≤ x) :
    (moveCell cell ptr nptr mem).readWord x = mem.readWord x := by
  unfold moveCell
  split_ifs
  · exact readWord_writeWord_of_apart hapart
  · rfl

/-- The words of a block that is met are not touched by the writes of a
merge. -/
theorem readWord_mergeOne (hundisturbed : Undisturbed mem cell met)
    (hptr : ptr ∈ met) (hhead : mem.readWord ptr = 0) {b : ℕ} (hb : b ∈ met)
    (len nptr : ℕ) :
    (mergeOne cell ptr len nptr mem').2.readWord b = mem'.readWord b ∧
      (b ≠ ptr → (mergeOne cell ptr len nptr mem').2.readWord (b + 2) =
        mem'.readWord (b + 2)) := by
  have hheaders := hundisturbed.headers ptr hptr hhead b hb
  have hapart := hundisturbed.apart b hb
  unfold Apart at hapart
  simp only [mergeOne]
  constructor
  · rw [readWord_writeWord_of_apart (by omega),
      moveCell_of_apart (by omega)]
  · intro hne
    rw [readWord_writeWord_of_apart (by omega),
      moveCell_of_apart (by omega)]

theorem cell_mergeOne (hapart : Apart cell ptr) (hbound : ptr < 65536)
    (len nptr : ℕ) :
    (mergeOne cell ptr len nptr mem').2.readWord cell =
      if nptr = mem'.readWord cell then ptr else mem'.readWord cell := by
  unfold Apart at hapart
  simp only [mergeOne, moveCell]
  rw [readWord_writeWord_of_apart (by omega)]
  split_ifs
  · exact readWord_writeWord hbound
  · rfl

/-- What the block behind a row adds to it. -/
theorem InRow.added (h : InRow mem met first ptr t mem')
    (hmem : block mem ptr (t + 1) ∈ met) :
    ∃ j, mem'.readWord (block mem ptr (t + 1) + 2) =
        runLen mem (block mem ptr (t + 1)) j ∧
      FreeRun mem (block mem ptr (t + 1)) j ∧
      (block mem ptr (t + 1) = ptr ∨
        ∀ i, 1 ≤ i → i ≤ j → block mem ptr (t + 1 + i) ≠ first) := by
  by_cases hback : block mem ptr (t + 1) = ptr
  · rw [hback]
    exact ⟨t, h.own, h.free, Or.inl rfl⟩
  · obtain ⟨j, hlen, hrow⟩ := h.len _ hmem hback
    refine ⟨j, hlen, ?_, Or.inr ?_⟩
    · intro i hpos hi
      rcases hrow with rfl | ⟨-, hfull, -⟩
      · omega
      · exact hfull.free i hpos hi
    · intro i hpos hi
      rcases hrow with rfl | ⟨-, -, hnot⟩
      · omega
      · rw [← block_block]
        exact hnot i hpos hi

/-- One pass of the loop that merges. -/
theorem InRow.step (hundisturbed : Undisturbed mem cell met)
    (hmet : Met mem met) (hptr : ptr ∈ met) (hhead : mem.readWord ptr = 0)
    (h : InRow mem met first ptr t mem')
    (hnext : mem.readWord (block mem ptr (t + 1)) = 0) :
    ∃ j mem'', rowPass cell ptr
        (runLen mem ptr t, block mem ptr (t + 1), mem') =
          .inl (runLen mem ptr (t + 1 + j), block mem ptr (t + 1 + j + 1),
            mem'') ∧
      InRow mem met first ptr (t + 1 + j) mem'' ∧
      mem''.readWord cell = (if block mem ptr (t + 1) = mem'.readWord cell
        then ptr else mem'.readWord cell) ∧
      (block mem ptr (t + 1) = ptr ∨
        ∀ i, 1 ≤ i → i ≤ j → block mem ptr (t + 1 + i) ≠ first) := by
  have hmem := hmet.block hptr hhead h.free
  obtain ⟨j, hlen, hfree, hnot⟩ := h.added hmem
  have hapart := hundisturbed.apart _ hmem
  unfold Apart at hapart
  have hsum : (mergeOne cell ptr (runLen mem ptr t) (block mem ptr (t + 1))
      mem').1 = runLen mem ptr (t + 1 + j) := by
    simp only [mergeOne]
    rw [moveCell_of_apart (by omega), hlen, runLen_append]
  have hfree' : mem'.readWord (block mem ptr (t + 1)) = 0 := by
    rw [h.type _ hmem, hnext]
  refine ⟨j, (mergeOne cell ptr (runLen mem ptr t) (block mem ptr (t + 1))
    mem').2, ?_, ?_, ?_, hnot⟩
  · simp only [rowPass, if_pos hfree', hsum, nextPtr_runLen]
  · refine ⟨?_, ?_, ?_, h.free.append hnext hfree⟩
    · intro b hb
      rw [(readWord_mergeOne hundisturbed hptr hhead hb _ _).1]
      exact h.type b hb
    · intro b hb hne
      unfold Rewritten
      rw [(readWord_mergeOne hundisturbed hptr hhead hb _ _).2 hne]
      exact h.len b hb hne
    · rw [← hsum]
      exact readWord_writeWord (Nat.mod_lt _ (by omega))
  · exact cell_mergeOne (hundisturbed.apart ptr hptr) (hmet.bound ptr hptr) _ _

/-- A row that ends in the image is taken in as a whole. -/
theorem InRow.reaches (hundisturbed : Undisturbed mem cell met)
    (hmet : Met mem met) (hptr : ptr ∈ met) (hhead : mem.readWord ptr = 0)
    (hfull : FullRun mem ptr n) (h : InRow mem met first ptr t mem')
    (hcell : mem'.readWord cell = firstAfter mem first ptr t) :
    ∃ mem'', Reaches (rowPass cell ptr)
        (runLen mem ptr t, block mem ptr (t + 1), mem')
        (runLen mem ptr n, block mem ptr (n + 1), mem'') ∧
      InRow mem met first ptr n mem'' ∧
      mem''.readWord cell = firstAfter mem first ptr n := by
  induction hleft : n - t using Nat.strong_induction_on
    generalizing t mem' with
  | _ left ih =>
      have hle := hfull.le h.free
      rcases hle.eq_or_lt with rfl | hlt
      · exact ⟨mem', .refl, h, hcell⟩
      have hnext := hfull.free (t + 1) (by omega) (by omega)
      have hself : block mem ptr (t + 1) ≠ ptr :=
        hfull.not_self (by omega) (by omega)
      obtain ⟨j, mem'', hpass, hrow, hcell'', hnot⟩ :=
        h.step hundisturbed hmet hptr hhead hnext
      have hmoved : mem''.readWord cell =
          firstAfter mem first ptr (t + 1 + j) := by
        rw [hcell'', hcell]
        exact firstAfter_step (hnot.resolve_left hself)
      obtain ⟨last, hreach, hlast⟩ := ih (n - (t + 1 + j)) (by omega) hrow
        hmoved rfl
      exact ⟨last, .head hpass hreach, hlast⟩

/-- A row without an end in the image is merged for ever. -/
theorem InRow.endless (hundisturbed : Undisturbed mem cell met)
    (hmet : Met mem met) (hptr : ptr ∈ met) (hhead : mem.readWord ptr = 0)
    (hendless : ∀ n, FreeRun mem ptr n)
    (h : InRow mem met first ptr t mem') :
    ¬ Halts (rowPass cell ptr)
      (runLen mem ptr t, block mem ptr (t + 1), mem') := by
  apply not_halts_of_closed (S := {state | ∃ t mem',
    InRow mem met first ptr t mem' ∧
      (runLen mem ptr t, block mem ptr (t + 1), mem') = state})
    ⟨t, mem', h, rfl⟩
  rintro _ ⟨t, mem', h, rfl⟩
  have hnext := hendless (t + 1) (t + 1) (by omega) le_rfl
  obtain ⟨j, mem'', hpass, hrow, -⟩ :=
    h.step hundisturbed hmet hptr hhead hnext
  exact ⟨_, ⟨t + 1 + j, mem'', hrow, rfl⟩, hpass⟩

/-- A row may have been taken in before. -/
theorem Merged.inRow (h : Merged mem cell met first mem') (hptr : ptr ∈ met) :
    ∃ t, InRow mem met first ptr t mem' ∧
      firstAfter mem first ptr t = first := by
  obtain ⟨t, hown, hrow⟩ := h.len ptr hptr
  refine ⟨t, ⟨h.type, fun b hb _ => h.len b hb, hown, ?_⟩, ?_⟩
  · rcases hrow with rfl | ⟨-, hfull, -⟩
    · intro i hpos hi
      omega
    · exact hfull.free
  · apply if_neg
    rintro ⟨i, hi, hfirst⟩
    rcases hrow with rfl | ⟨-, -, hnot⟩
    · omega
    · exact hnot (i + 1) (by omega) (by omega) hfirst

/-- When a row has been taken in, `mm_first_free` is in no row that has. -/
theorem InRow.merged (hhead : mem.readWord ptr = 0)
    (hfull : FullRun mem ptr n) (h : InRow mem met first ptr n mem')
    (hcell : mem'.readWord cell = firstAfter mem first ptr n) :
    Merged mem cell met (firstAfter mem first ptr n) mem' := by
  refine ⟨h.type, ?_, hcell⟩
  intro b hb
  by_cases hown : b = ptr
  · subst hown
    refine ⟨n, h.own, Or.inr ⟨hhead, hfull, ?_⟩⟩
    intro i hpos hi
    unfold firstAfter
    split_ifs with hwithin
    · exact hfull.not_self hpos hi
    · intro hfirst
      exact hwithin ⟨i - 1, by omega, by rwa [Nat.sub_add_cancel hpos]⟩
  · obtain ⟨k, hlen, hrow⟩ := h.len b hb hown
    refine ⟨k, hlen, hrow.imp_right ?_⟩
    rintro ⟨hfree, hrun, hnot⟩
    refine ⟨hfree, hrun, ?_⟩
    intro i hpos hi
    unfold firstAfter
    split_ifs with hwithin
    · -- the rest of the other row would be this one
      intro hinside
      obtain ⟨x, hx, hfirst⟩ := hwithin
      have hrest := hrun.drop hi
      rw [hinside] at hrest
      have hcount := hrest.unique hfull
      rw [← hinside, block_block] at hfirst
      exact hnot (i + (x + 1)) (by omega) (by omega) hfirst
    · exact hnot i hpos hi

end Rows

end BrickEmu
