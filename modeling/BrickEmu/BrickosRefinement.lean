import BrickEmu.BrickosHeap

/-!
# The brickOS heap functions refine their lists

On a tiling, the walks of `brickos_malloc` and `brickos_free` end, the memory
holds the blocks and the cell that the lists say, and only free blocks and
the cell are written to.
-/

namespace BrickEmu

open Memory

/-- The byte lies in a free block. -/
def InFree (bs : List Block) (x : ℕ) : Prop :=
  ∃ b ∈ bs, b.type = 0 ∧ b.addr ≤ x ∧ x < b.stop

theorem InFree.cons {bs : List Block} {x : ℕ} (h : InFree bs x)
    (b : Block) : InFree (b :: bs) x := by
  obtain ⟨c, hc, hin⟩ := h
  exact ⟨c, List.mem_cons_of_mem b hc, hin⟩

theorem InFree.absorb {b c : Block} {cs : List Block} {x : ℕ}
    (hnext : c.addr = b.stop) (hc : c.type = 0)
    (h : InFree (b.absorb c :: cs) x) : InFree (b :: c :: cs) x := by
  obtain ⟨d, hd, hfree, hle, hlt⟩ := h
  rcases List.mem_cons.mp hd with rfl | hd
  · rw [Block.absorb_stop hnext] at hlt
    by_cases hx : x < b.stop
    · exact ⟨b, by simp, hfree, hle, hx⟩
    · exact ⟨c, by simp, hc, by omega, hlt⟩
  · exact ⟨d, by simp [hd], hfree, hle, hlt⟩

/-- Memory outside the cell and the free blocks is the same. -/
def Spares (cell : ℕ) (bs : List Block) (mem mem' : Memory) : Prop :=
  ∀ x, x ≠ cell → x ≠ cell + 1 → ¬InFree bs x → mem' x = mem x

namespace Spares

variable {cell : ℕ} {bs cs : List Block} {mem mem' mem'' : Memory}

theorem refl : Spares cell bs mem mem :=
  fun _ _ _ _ => rfl

theorem trans (h : Spares cell bs mem mem')
    (h' : Spares cell bs mem' mem'') : Spares cell bs mem mem'' :=
  fun x hhigh hlow hout =>
    (h' x hhigh hlow hout).trans (h x hhigh hlow hout)

/-- Fewer bytes in free blocks are a stronger frame. -/
theorem mono (h : Spares cell bs mem mem')
    (hsub : ∀ x, InFree bs x → InFree cs x) : Spares cell cs mem mem' :=
  fun x hhigh hlow hout => h x hhigh hlow fun hin => hout (hsub x hin)

theorem writeCell (val : ℕ) :
    Spares cell bs mem (mem.writeWord cell val) :=
  fun _ hhigh hlow _ => writeWord_of_ne hhigh hlow

theorem writeIn {b : Block} {addr val : ℕ} (hb : b ∈ bs)
    (hfree : b.type = 0) (hlow : b.addr ≤ addr)
    (hhigh : addr + 2 ≤ b.stop) :
    Spares cell bs mem (mem.writeWord addr val) := by
  intro x _ _ hout
  apply writeWord_of_ne
  · rintro rfl
    exact hout ⟨b, hb, hfree, hlow, by omega⟩
  · rintro rfl
    exact hout ⟨b, hb, hfree, by omega, by omega⟩

/-- A block before the blocks that are worked on keeps its header. -/
theorem header {b : Block} (h : Spares cell bs mem mem') (hin : b.In mem)
    (hcell : cell + 2 ≤ b.addr) (hlater : ∀ c ∈ bs, b.stop ≤ c.addr) :
    b.In mem' := by
  apply hin.transport
  intro x hx hlt
  apply h x (by omega) (by omega)
  rintro ⟨c, hc, -, hle, -⟩
  have hbefore := hlater c hc
  simp only [Block.stop] at hbefore
  omega

end Spares

theorem nextPtr_eq {b : Block} (hstop : b.stop < 65536) :
    nextPtr b.addr b.len = b.stop := by
  simp only [nextPtr, Block.stop] at *
  omega

section Merging

variable {cell stop : ℕ}

theorem moveCell_of_le {ptr nptr x : ℕ} {mem : Memory}
    (hx : cell + 2 ≤ x) : moveCell cell ptr nptr mem x = mem x := by
  unfold moveCell
  split_ifs
  · apply writeWord_of_ne <;> omega
  · rfl

theorem readWord_moveCell {ptr nptr addr : ℕ} {mem : Memory}
    (haddr : cell + 2 ≤ addr) :
    (moveCell cell ptr nptr mem).readWord addr = mem.readWord addr :=
  readWord_congr (moveCell_of_le haddr) (moveCell_of_le (by omega))

theorem readCell_moveCell {ptr nptr : ℕ} {mem : Memory}
    (hptr : ptr < 65536) :
    (moveCell cell ptr nptr mem).readWord cell =
      if nptr = mem.readWord cell then ptr else mem.readWord cell := by
  unfold moveCell
  split_ifs
  · exact readWord_writeWord hptr
  · rfl

theorem spares_moveCell {ptr nptr : ℕ} {bs : List Block} {mem : Memory} :
    Spares cell bs mem (moveCell cell ptr nptr mem) := by
  unfold moveCell
  split_ifs
  · exact Spares.writeCell ptr
  · exact Spares.refl

/-- The memory after one turn of the merging loop. -/
def absorbIn (cell : ℕ) (b c : Block) (mem : Memory) : Memory :=
  (moveCell cell b.addr c.addr mem).writeWord (b.addr + 2) (b.absorb c).len

theorem Tiles.absorb {b c : Block} {cs : List Block} {mem : Memory}
    (htiles : Tiles mem stop b.addr (b :: c :: cs)) (hb : b.type = 0)
    (hc : c.type = 0) (hcell : cell + 2 ≤ b.addr) :
    Tiles (absorbIn cell b c mem) stop b.addr (b.absorb c :: cs) := by
  obtain ⟨-, hbin, htail⟩ := htiles.of_free hb
  obtain ⟨haddr, hcin, hrest⟩ := htail.of_free hc
  have hstop := hrest.ptr_header
  have hlen : (b.absorb c).len < 65536 := by
    simp only [Block.absorb, Block.stop] at *
    omega
  apply Tiles.cons (b.absorb_addr c)
  · refine ⟨hbin.header, ?_, readWord_writeWord hlen⟩
    rw [Block.absorb_addr, absorbIn,
      readWord_writeWord_of_apart (Or.inl le_rfl), readWord_moveCell hcell]
    exact hbin.type_eq
  · rw [Block.absorb_stop haddr]
    apply hrest.transport
    intro d hd x hx _
    have hle := hrest.le_addr hd
    simp only [Block.stop] at hle haddr
    rw [absorbIn, writeWord_of_ne (by omega) (by omega)]
    exact moveCell_of_le (by omega)

theorem readCell_absorbIn {b c : Block} {mem : Memory}
    (hcell : cell + 2 ≤ b.addr) (hb : b.addr < 65536) :
    (absorbIn cell b c mem).readWord cell =
      if c.addr = mem.readWord cell then b.addr else mem.readWord cell := by
  rw [absorbIn, readWord_writeWord_of_apart (by omega)]
  exact readCell_moveCell hb

theorem mergeAdjacent_absorb {b c : Block} {cs : List Block} {mem : Memory}
    (htiles : Tiles mem stop b.addr (b :: c :: cs)) (hb : b.type = 0)
    (hc : c.type = 0) (hcell : cell + 2 ≤ b.addr) (fuel : ℕ) :
    mergeAdjacent cell b.addr (fuel + 1) mem b.len b.stop =
      mergeAdjacent cell b.addr fuel (absorbIn cell b c mem)
        (b.absorb c).len (b.absorb c).stop := by
  obtain ⟨-, hbin, htail⟩ := htiles.of_free hb
  obtain ⟨haddr, hcin, hrest⟩ := htail.of_free hc
  have hstop := hrest.ptr_header
  have hafter := Block.absorb_stop haddr
  have hread : (moveCell cell b.addr c.addr mem).readWord (c.addr + 2) =
      c.len := by
    simp only [Block.stop] at haddr
    rw [readWord_moveCell (by omega)]
    exact hcin.len_eq
  have hlen : (b.len + (2 + c.len)) % 65536 = (b.absorb c).len := by
    apply Nat.mod_eq_of_lt
    simp only [Block.stop] at hstop haddr
    omega
  have hnext : nextPtr b.addr (b.absorb c).len = (b.absorb c).stop := by
    rw [← b.absorb_addr c]
    apply nextPtr_eq
    omega
  rw [mergeAdjacent, ← haddr, hcin.type_eq, if_pos hc]
  simp only
  rw [hread, hlen, hnext, absorbIn]

theorem mergeAdjacent_refines (bs : List Block) :
    ∀ {b : Block} {mem : Memory} {fuel : ℕ},
      Tiles mem stop b.addr (b :: bs) → b.type = 0 → cell + 2 ≤ b.addr →
        bs.length < fuel →
      ∀ {c : Block} {cs : List Block} {w : ℕ},
        coalesce b bs (mem.readWord cell) = (c, cs, w) →
      ∃ mem', mergeAdjacent cell b.addr fuel mem b.len b.stop =
          some (mem', c.len, c.stop) ∧
        Tiles mem' stop b.addr (c :: cs) ∧ mem'.readWord cell = w ∧
          Spares cell (b :: bs) mem mem' ∧
            ∀ x, InFree (c :: cs) x → InFree (b :: bs) x := by
  induction bs with
  | nil =>
      intro b mem fuel htiles hb
      exact absurd (htiles.of_free hb).2.2 (by rintro ⟨⟩)
  | cons d ds ih =>
      intro b mem fuel htiles hb hcell hfuel c cs w hmerge
      obtain ⟨fuel, rfl⟩ : ∃ n, fuel = n + 1 :=
        ⟨fuel - 1, by simp only [List.length_cons] at hfuel; omega⟩
      obtain ⟨-, hbin, htail⟩ := htiles.of_free hb
      have hdin := htail.mem_in (List.mem_cons_self (a := d) (l := ds))
      have hdaddr : d.addr = b.stop := by
        cases htail <;> assumption
      have htype : mem.readWord b.stop = d.type := by
        rw [← hdaddr, hdin.type_eq]
      rw [coalesce] at hmerge
      by_cases hd : d.type = 0
      · -- the turn merges, and the rest of the loop runs on the merged block
        rw [if_pos hd] at hmerge
        obtain ⟨-, -, hrest⟩ := htail.of_free hd
        have hstop := hrest.ptr_header
        have hheader := hbin.header
        have hturn := htiles.absorb hb hd hcell
        rw [← readCell_absorbIn hcell (by omega)] at hmerge
        obtain ⟨mem', hrun, htiles', hw, hspares, hfree⟩ :=
          ih (b := b.absorb d) hturn hb hcell
            (Nat.lt_of_succ_lt_succ hfuel) hmerge
        refine ⟨mem', ?_, htiles', hw, ?_,
          fun x hx => (hfree x hx).absorb hdaddr hd⟩
        · rw [mergeAdjacent_absorb htiles hb hd hcell]
          exact hrun
        · apply Spares.trans _
            (hspares.mono fun x => InFree.absorb hdaddr hd)
          apply spares_moveCell.trans
          apply Spares.writeIn List.mem_cons_self hb
          · omega
          · simp only [Block.stop]
            omega
      · rw [if_neg hd] at hmerge
        obtain ⟨rfl, rfl, rfl⟩ : b = c ∧ d :: ds = cs ∧
            mem.readWord cell = w := by
          simpa only [Prod.mk.injEq] using hmerge
        refine ⟨mem, ?_, htiles, rfl, Spares.refl, fun x hx => hx⟩
        rw [mergeAdjacent, htype, if_neg hd]

end Merging

section Walks

variable {mmStart cell stop : ℕ}

theorem findFree_refines {mem : Memory} {ptr : ℕ} {bs : List Block}
    (htiles : Tiles mem stop ptr bs) (hwrap : stop < 65536 + mmStart)
    (hstart : mmStart ≤ ptr) :
    ∀ {fuel : ℕ}, bs.length < fuel →
      findFree mmStart mem fuel ptr = some (firstFree stop bs) := by
  induction htiles with
  | @last ptr b haddr hin hused hreach hstop =>
      intro fuel hfuel
      obtain ⟨fuel, rfl⟩ : ∃ n, fuel = n + 2 :=
        ⟨fuel - 2, by simp only [List.length_singleton] at hfuel; omega⟩
      have hnext : nextPtr ptr b.len = stop % 65536 := by
        rw [← hstop, ← haddr, nextPtr, Block.stop]
      have hover : ¬mmStart ≤ stop % 65536 := by
        omega
      subst haddr
      rw [findFree, hin.type_eq, if_pos ⟨hused, hstart⟩, hin.len_eq, hnext,
        findFree, if_neg (fun h => hover h.2), firstFree, if_neg hused,
        firstFree]
  | @cons ptr b bs haddr hin htail ih =>
      intro fuel hfuel
      obtain ⟨fuel, rfl⟩ : ∃ n, fuel = n + 1 :=
        ⟨fuel - 1, by simp only [List.length_cons] at hfuel; omega⟩
      have hheader := htail.ptr_header
      subst haddr
      rw [findFree, hin.type_eq, firstFree]
      by_cases hb : b.type = 0
      · rw [if_neg (fun h => h.1 hb), if_pos hb]
      · rw [if_pos ⟨hb, hstart⟩, if_neg hb, hin.len_eq,
          nextPtr_eq (by omega)]
        apply ih
        · simp only [Block.stop]
          omega
        · exact Nat.lt_of_succ_lt_succ hfuel

theorem markFree_of_le {ptr x : ℕ} {mem : Memory} (hx : cell + 2 ≤ x) :
    markFree cell ptr mem x = mem.writeWord ptr 0 x := by
  simp only [markFree]
  split_ifs
  · apply writeWord_of_ne <;> omega
  · rfl

theorem readWord_markFree {ptr addr : ℕ} {mem : Memory}
    (haddr : cell + 2 ≤ addr) :
    (markFree cell ptr mem).readWord addr =
      (mem.writeWord ptr 0).readWord addr :=
  readWord_congr (markFree_of_le haddr) (markFree_of_le (by omega))

theorem readCell_markFree {ptr : ℕ} {mem : Memory} (hcell : cell + 2 ≤ ptr)
    (hptr : ptr < 65536) :
    (markFree cell ptr mem).readWord cell =
      if mem.readWord cell < ptr then ptr else mem.readWord cell := by
  have hread : (mem.writeWord ptr 0).readWord cell = mem.readWord cell :=
    readWord_writeWord_of_apart (Or.inl hcell)
  simp only [markFree, hread]
  split_ifs
  · exact readWord_writeWord hptr
  · exact hread

theorem Tiles.markFree {mem : Memory} {b : Block} {bs : List Block}
    (hin : b.In mem) (htail : Tiles mem stop b.stop bs)
    (hcell : cell + 2 ≤ b.addr) :
    Tiles (markFree cell b.addr mem) stop b.addr (b.freed :: bs) := by
  apply Tiles.cons b.freed_addr
  · refine ⟨hin.header, ?_, ?_⟩
    · rw [b.freed_addr, readWord_markFree hcell]
      exact readWord_writeWord (by omega)
    · rw [b.freed_addr, readWord_markFree (by omega),
        readWord_writeWord_of_apart (Or.inr le_rfl)]
      exact hin.len_eq
  · apply htail.transport
    intro c hc x hx _
    have hle := htail.le_addr hc
    simp only [Block.stop] at hle
    rw [markFree_of_le (by omega), writeWord_of_ne (by omega) (by omega)]

theorem spares_markFree {mem : Memory} {b : Block} {bs : List Block} :
    Spares cell (b.freed :: bs) mem (markFree cell b.addr mem) := by
  have hheader : Spares cell (b.freed :: bs) mem
      (mem.writeWord b.addr 0) := by
    apply Spares.writeIn List.mem_cons_self b.freed_type le_rfl
    simp only [Block.stop]
    omega
  simp only [BrickEmu.markFree]
  split_ifs
  · exact hheader.trans (Spares.writeCell b.addr)
  · exact hheader

theorem markFree_refines {mem : Memory} {b : Block} {bs : List Block}
    (hin : b.In mem) (htail : Tiles mem stop b.stop bs)
    (hcell : cell + 2 ≤ b.addr) {c : Block} {cs : List Block} {w : ℕ}
    (hmerge : coalesce b.freed bs
      (if mem.readWord cell < b.addr then b.addr else mem.readWord cell) =
        (c, cs, w)) :
    ∃ mem', (mergeAdjacent cell b.addr walkLimit (markFree cell b.addr mem)
        b.len b.stop).map Prod.fst = some mem' ∧
      Tiles mem' stop b.addr (c :: cs) ∧ mem'.readWord cell = w ∧
        Spares cell (b.freed :: bs) mem mem' := by
  have hheader := hin.header
  have hlength := htail.length_le
  have hfuel : bs.length < walkLimit := by
    simp only [walkLimit, Block.stop] at *
    omega
  rw [← readCell_markFree hcell (by omega)] at hmerge
  have hmarked : Tiles (markFree cell b.addr mem) stop b.freed.addr
      (b.freed :: bs) := Tiles.markFree hin htail hcell
  obtain ⟨mem', hrun, htiles, hw, hspares, -⟩ :=
    mergeAdjacent_refines bs hmarked b.freed_type hcell hfuel hmerge
  refine ⟨mem', ?_, htiles, hw, spares_markFree.trans hspares⟩
  exact congrArg (Option.map Prod.fst) hrun

theorem freeFrom_refines {mem : Memory} {ptr : ℕ} {bs : List Block}
    {b : Block} (htiles : Tiles mem stop ptr bs)
    (hcell : cell + 2 ≤ mmStart) (hstart : mmStart ≤ ptr)
    (hb : b ∈ bs.dropLast) :
    ∀ {fuel : ℕ}, bs.length < fuel →
      ∃ mem', freeFrom mmStart cell (b.addr + 4) fuel ptr mem = some mem' ∧
        Tiles mem' stop ptr
          (release (b.addr + 4) bs (mem.readWord cell)).1 ∧
        mem'.readWord cell =
          (release (b.addr + 4) bs (mem.readWord cell)).2 ∧
        Spares cell (b.freed :: bs) mem mem' := by
  induction htiles with
  | last => simp at hb
  | @cons ptr c cs haddr hin htail ih =>
      intro fuel hfuel
      obtain ⟨fuel, rfl⟩ : ∃ n, fuel = n + 1 :=
        ⟨fuel - 1, by simp only [List.length_cons] at hfuel; omega⟩
      have hheader := htail.ptr_header
      have hnext := nextPtr_eq (b := c) (by omega)
      subst haddr
      rw [freeFrom, if_neg (by omega), release]
      simp only [hin.len_eq, hnext]
      by_cases hhere : c.addr + 4 = b.addr + 4
      · -- the walk has reached the block
        have hmem := (Tiles.cons rfl hin htail).mem_in
          (List.dropLast_subset _ hb)
        obtain rfl : b = c := hmem.unique hin (by omega)
        rw [if_pos rfl, if_pos rfl]
        obtain ⟨mem', hrun, htiles, hw, hspares⟩ :=
          markFree_refines hin htail (show cell + 2 ≤ b.addr by omega) rfl
        refine ⟨mem', hrun, htiles, hw, hspares.mono ?_⟩
        rintro x ⟨d, hd, hx⟩
        rcases List.mem_cons.mp hd with rfl | hd
        · exact ⟨_, by simp, hx⟩
        · exact ⟨d, by simp [hd], hx⟩
      · rw [if_neg hhere, if_neg hhere]
        have hrest : b ∈ cs.dropLast := by
          cases cs with
          | nil => cases htail
          | cons d ds =>
              rcases List.mem_cons.mp hb with rfl | hb
              · exact absurd rfl hhere
              · exact hb
        have hbelow : mmStart ≤ c.stop := by
          simp only [Block.stop]
          omega
        obtain ⟨mem', hrun, htiles', hw, hspares⟩ :=
          ih hbelow hrest (Nat.lt_of_succ_lt_succ hfuel)
        refine ⟨mem', hrun, ?_, hw, hspares.mono ?_⟩
        · -- the blocks before it keep their headers
          apply Tiles.cons rfl (hspares.header hin (by omega) _) htiles'
          intro d hd
          rcases List.mem_cons.mp hd with rfl | hd
          · have hmem : b ∈ cs := List.dropLast_subset _ hrest
            rw [Block.freed_addr]
            exact htail.le_addr hmem
          · exact htail.le_addr hd
        · rintro x ⟨d, hd, hx⟩
          rcases List.mem_cons.mp hd with rfl | hd
          · exact ⟨_, by simp, hx⟩
          · exact ⟨d, by simp [hd], hx⟩

section Taking

variable {mem : Memory} {size : ℕ} {b : Block} {bs : List Block}

/-- The memory in which `brickos_malloc` has marked its block. -/
def takenIn (size : ℕ) (b : Block) (mem : Memory) : Memory :=
  (splitBlock size b.addr b.len b.stop mem).2.writeWord b.addr 0xfffe

theorem splitBlock_fst (hstop : b.stop < 65536) :
    (splitBlock size b.addr b.len b.stop mem).1 = (taken size b).stop := by
  simp only [splitBlock, taken, Block.stop] at *
  split_ifs with hsplit
  · simp only [nextPtr]
    omega
  · rfl

theorem takenIn_split (hsplit : size + 8 < b.len) (hstop : b.stop < 65536) :
    takenIn size b mem =
      (((mem.writeWord (b.addr + 2) size).writeWord
        (b.addr + 4 + 2 * size) 0).writeWord (b.addr + 4 + 2 * size + 2)
          (b.len - size - 2)).writeWord b.addr 0xfffe := by
  have hnext : nextPtr b.addr size = b.addr + 4 + 2 * size := by
    apply Nat.mod_eq_of_lt
    simp only [Block.stop] at hstop
    omega
  rw [takenIn, splitBlock, if_pos hsplit, hnext]

theorem takenIn_whole (hwhole : ¬size + 8 < b.len) :
    takenIn size b mem = mem.writeWord b.addr 0xfffe := by
  rw [takenIn, splitBlock, if_neg hwhole]

theorem takenIn_of_outside {x : ℕ} (hstop : b.stop < 65536)
    (hx : x < b.addr ∨ b.stop ≤ x) : takenIn size b mem x = mem x := by
  by_cases hsplit : size + 8 < b.len
  · rw [takenIn_split hsplit hstop]
    simp only [Block.stop] at *
    rw [writeWord_of_ne (by omega) (by omega),
      writeWord_of_ne (by omega) (by omega),
      writeWord_of_ne (by omega) (by omega),
      writeWord_of_ne (by omega) (by omega)]
  · rw [takenIn_whole hsplit]
    simp only [Block.stop] at *
    exact writeWord_of_ne (by omega) (by omega)

theorem taken_in (hin : b.In mem) (hstop : b.stop < 65536) :
    (taken size b).In (takenIn size b mem) := by
  refine ⟨hin.header, readWord_writeWord (by omega), ?_⟩
  rw [taken_addr]
  by_cases hsplit : size + 8 < b.len
  · have hlen : (taken size b).len = size := if_pos hsplit
    rw [takenIn_split hsplit hstop, hlen]
    simp only [Block.stop] at hstop
    rw [readWord_writeWord_of_apart (by omega),
      readWord_writeWord_of_apart (by omega),
      readWord_writeWord_of_apart (by omega)]
    exact readWord_writeWord (by omega)
  · have hlen : (taken size b).len = b.len := if_neg hsplit
    rw [takenIn_whole hsplit, hlen, readWord_writeWord_of_apart (by omega)]
    exact hin.len_eq

/-- The rest of a block that is split is a free block. -/
theorem remainder_in (hsplit : size + 8 < b.len) (hstop : b.stop < 65536) :
    Block.In ⟨b.addr + 4 + 2 * size, 0, b.len - size - 2⟩
      (takenIn size b mem) := by
  rw [takenIn_split hsplit hstop]
  simp only [Block.stop] at hstop
  refine ⟨?_, ?_, ?_⟩
  · simp only
    omega
  · simp only
    rw [readWord_writeWord_of_apart (by omega),
      readWord_writeWord_of_apart (by omega)]
    exact readWord_writeWord (by omega)
  · simp only
    rw [readWord_writeWord_of_apart (by omega)]
    exact readWord_writeWord (by omega)

theorem taken_stop_of_split (hsplit : size + 8 < b.len) :
    (taken size b).stop = b.addr + 4 + 2 * size := by
  simp only [taken, Block.stop, if_pos hsplit]

/-- The blocks after `brickos_malloc` has taken the first one. -/
theorem Tiles.take (htiles : Tiles mem stop b.addr (b :: bs))
    (hb : b.type = 0) (size : ℕ) :
    Tiles (takenIn size b mem) stop b.addr
        (taken size b :: (remainder size b ++ bs)) ∧
      Tiles (takenIn size b mem) stop (taken size b).stop
        (remainder size b ++ bs) := by
  obtain ⟨-, hin, htail⟩ := htiles.of_free hb
  have hstop := htail.ptr_header
  have hrest : Tiles (takenIn size b mem) stop b.stop bs := by
    apply htail.transport
    intro c hc x hx _
    have hle := htail.le_addr hc
    exact takenIn_of_outside (by omega) (by omega)
  have hafter : Tiles (takenIn size b mem) stop (taken size b).stop
      (remainder size b ++ bs) := by
    by_cases hsplit : size + 8 < b.len
    · rw [remainder, if_pos hsplit, taken_stop_of_split hsplit]
      apply Tiles.cons rfl (remainder_in hsplit (by omega))
      have hend : (⟨b.addr + 4 + 2 * size, 0, b.len - size - 2⟩ :
          Block).stop = b.stop := by
        simp only [Block.stop]
        omega
      rw [hend]
      exact hrest
    · have hwhole : (taken size b).stop = b.stop := by
        simp only [taken, Block.stop, if_neg hsplit]
      rw [remainder, if_neg hsplit, hwhole]
      exact hrest
  exact ⟨Tiles.cons (taken_addr size b) (taken_in hin (by omega)) hafter,
    hafter⟩

theorem takeBlock_refines (size : ℕ)
    (htiles : Tiles mem stop b.addr (b :: bs)) (hb : b.type = 0)
    (hcell : cell + 2 ≤ mmStart) (hstart : mmStart ≤ b.addr)
    (hwrap : stop < 65536 + mmStart) :
    ∃ mem', takeBlock mmStart cell size b.addr b.len b.stop mem =
        some (b.addr + 4, mem') ∧
      Tiles mem' stop b.addr (taken size b :: (remainder size b ++ bs)) ∧
      mem'.readWord cell =
        (if b.addr = mem.readWord cell then
          firstFree stop (remainder size b ++ bs)
        else mem.readWord cell) ∧
      Spares cell (b :: bs) mem mem' := by
  obtain ⟨-, hin, htail⟩ := htiles.of_free hb
  have hstop := htail.ptr_header
  obtain ⟨htaken, hafter⟩ := htiles.take hb size
  have hresult : (b.addr + 4) % 65536 = b.addr + 4 := by
    simp only [Block.stop] at hstop
    omega
  have hsame : (takenIn size b mem).readWord cell = mem.readWord cell := by
    apply readWord_congr <;>
      exact takenIn_of_outside (by omega) (by omega)
  have hspares : Spares cell (b :: bs) mem (takenIn size b mem) := by
    intro x _ _ hout
    apply takenIn_of_outside (by omega)
    by_contra hx
    exact hout ⟨b, by simp, hb, by omega, by omega⟩
  have hcode : takeBlock mmStart cell size b.addr b.len b.stop mem =
      if b.addr = (takenIn size b mem).readWord cell then
        (findFree mmStart (takenIn size b mem) walkLimit
          (splitBlock size b.addr b.len b.stop mem).1).map fun nptr =>
            ((b.addr + 4) % 65536,
              (takenIn size b mem).writeWord cell nptr)
      else some ((b.addr + 4) % 65536, takenIn size b mem) := rfl
  rw [hcode, hsame, hresult, splitBlock_fst (by omega)]
  by_cases hnamed : b.addr = mem.readWord cell
  · -- the cell names the block and moves on to the next free block
    have hlength := hafter.length_le
    have hbelow : mmStart ≤ (taken size b).stop := by
      simp only [Block.stop, taken_addr]
      omega
    have hfind := findFree_refines hafter hwrap hbelow
      (show _ < walkLimit by unfold walkLimit; omega)
    have hval := hafter.firstFree_lt
    rw [if_pos hnamed, if_pos hnamed, hfind]
    refine ⟨_, rfl, ?_, readWord_writeWord hval,
      hspares.trans (Spares.writeCell _)⟩
    apply htaken.transport
    intro c hc x hx _
    have hle := htaken.le_addr hc
    exact writeWord_of_ne (by omega) (by omega)
  · rw [if_neg hnamed, if_neg hnamed]
    exact ⟨_, rfl, htaken, hsame, hspares⟩

end Taking

theorem InFree.of_suffix {bs cs : List Block} {x : ℕ} (hsub : cs <:+ bs)
    (h : InFree cs x) : InFree bs x := by
  obtain ⟨b, hb, hin⟩ := h
  exact ⟨b, hsub.subset hb, hin⟩

/-- The value that `brickos_malloc` returns for the block it finds. -/
def resultOf : Option Block → ℕ
  | none => 0
  | some b => b.addr + 4

theorem mallocFrom_refines (hcell : cell + 2 ≤ mmStart)
    (hwrap : stop < 65536 + mmStart) (size n : ℕ) :
    ∀ {mem : Memory} {ptr fuel : ℕ} {bs : List Block},
      bs.length = n → Tiles mem stop ptr bs → mmStart ≤ ptr → n < fuel →
      ∃ r mem' bs',
        mallocFrom mmStart cell size fuel ptr mem =
          some (resultOf r, mem') ∧
        Allocates stop size bs (mem.readWord cell) r bs'
          (mem'.readWord cell) ∧
        Tiles mem' stop ptr bs' ∧ Spares cell bs mem mem' := by
  induction n using Nat.strong_induction_on with
  | _ n ih =>
      intro mem ptr fuel bs hlen htiles hstart hfuel
      obtain ⟨fuel, rfl⟩ : ∃ k, fuel = k + 1 := ⟨fuel - 1, by omega⟩
      cases htiles with
      | @last _ b haddr hin hused hreach hstop =>
          subst haddr
          -- behind the last block the address has wrapped around
          obtain ⟨fuel, rfl⟩ : ∃ k, fuel = k + 1 :=
            ⟨fuel - 1, by simp only [List.length_singleton] at hlen; omega⟩
          have hnext : nextPtr b.addr b.len = stop % 65536 := by
            rw [← hstop, nextPtr, Block.stop]
          refine ⟨none, mem, [b], ?_, Allocates.used hused .exhausted,
            Tiles.last rfl hin hused hreach hstop, Spares.refl⟩
          rw [mallocFrom, if_neg (by omega)]
          simp only [hin.type_eq, hin.len_eq, hnext, hused, false_and,
            if_false]
          rw [mallocFrom, if_pos (by omega)]
          rfl
      | @cons _ b bs haddr hin htail =>
          subst haddr
          have hheader := htail.ptr_header
          have hnext := nextPtr_eq (b := b) (by omega)
          rw [mallocFrom, if_neg (by omega)]
          simp only [hin.type_eq, hin.len_eq, hnext]
          simp only [List.length_cons] at hlen
          by_cases hb : b.type = 0
          · obtain ⟨c, cs, w, hmerge⟩ : ∃ c cs w,
                coalesce b bs (mem.readWord cell) = (c, cs, w) :=
              ⟨_, _, _, rfl⟩
            have hlimit : bs.length < walkLimit := by
              have hlength := htail.length_le
              unfold walkLimit
              omega
            obtain ⟨mem₁, hrun, htiles, rfl, hspares, hfree⟩ :=
              mergeAdjacent_refines bs (Tiles.cons rfl hin htail) hb
                (by omega) hlimit hmerge
            obtain ⟨hcaddr, hctype⟩ := coalesce_head hmerge
            have hsuffix := coalesce_suffix hmerge
            have hcs := hsuffix.length_le
            rw [← hcaddr] at htiles
            simp only [if_pos hb, hrun]
            by_cases hsize : size < c.len
            · rw [if_pos ⟨hb, hsize⟩, ← hcaddr]
              obtain ⟨mem', htake, htiles', hcell', hspares'⟩ :=
                takeBlock_refines size htiles (hctype.trans hb)
                  hcell (by omega) hwrap
              refine ⟨some (taken size c), mem', _, htake, ?_, htiles',
                hspares.trans (hspares'.mono hfree)⟩
              rw [hcell']
              exact Allocates.found hb hmerge hsize
            · rw [if_neg (fun h => hsize h.2)]
              obtain ⟨-, hcin, hctail⟩ := htiles.of_free (hctype.trans hb)
              have hbelow : mmStart ≤ c.stop := by
                simp only [Block.stop]
                omega
              obtain ⟨r, mem', cs', hrun', hallocates, htiles', hspares'⟩ :=
                ih cs.length (by omega) rfl hctail hbelow
                  (show cs.length < fuel by omega)
              refine ⟨r, mem', c :: cs', hrun', ?_, ?_, ?_⟩
              · exact Allocates.small hb hmerge (by omega) hallocates
              · apply Tiles.cons hcaddr _ htiles'
                exact hspares'.header hcin (by omega)
                  fun d hd => hctail.le_addr hd
              · apply hspares.trans (hspares'.mono _)
                intro x hx
                exact (hx.of_suffix hsuffix).cons b
          · simp only [hb, false_and, if_false]
            have hbelow : mmStart ≤ b.stop := by
              simp only [Block.stop]
              omega
            obtain ⟨r, mem', bs', hrun, hallocates, htiles', hspares⟩ :=
              ih bs.length (by omega) rfl htail hbelow
                (show bs.length < fuel by omega)
            refine ⟨r, mem', b :: bs', hrun,
              Allocates.used hb hallocates, ?_,
              hspares.mono fun x hx => hx.cons b⟩
            apply Tiles.cons rfl _ htiles'
            exact hspares.header hin (by omega) fun d hd => htail.le_addr hd

end Walks

end BrickEmu
