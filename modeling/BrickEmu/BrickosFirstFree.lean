import BrickEmu.BrickosCalls

/-!
# The cell `mm_first_free`

The cell should hold the address of the lowest free block.
`brickos_malloc` keeps it right.  `brickos_free` compares the wrong way
around: it raises the cell to the freed block when the cell is below, and
leaves it when the cell is above, so the cell is right again only when no
block was free or when the lowest free block is merged into the freed one.
-/

namespace BrickEmu

open Memory

section Lists

variable {mem : Memory} {stop ptr size v v' w : ℕ} {b c : Block}
  {bs cs bs' : List Block}

/-- The value is the address of the lowest free block, or the place behind
the last block when none is free. -/
def NamesFirstFree (stop : ℕ) (bs : List Block) (v : ℕ) : Prop :=
  (∃ b ∈ bs, b.type = 0 ∧ b.addr = v ∧
      ∀ c ∈ bs, c.type = 0 → b.addr ≤ c.addr) ∨
    ((∀ b ∈ bs, b.type ≠ 0) ∧ v = stop % 65536)

theorem Tiles.namesFirstFree (h : Tiles mem stop ptr bs) :
    NamesFirstFree stop bs (firstFree stop bs) := by
  induction h with
  | last haddr hin hused hreach hstop =>
      right
      rw [firstFree, if_neg hused, firstFree]
      exact ⟨fun b hb => List.mem_singleton.mp hb ▸ hused, rfl⟩
  | @cons ptr b bs haddr hin htail ih =>
      rw [firstFree]
      by_cases hb : b.type = 0
      · rw [if_pos hb]
        refine Or.inl ⟨b, List.mem_cons_self, hb, rfl, ?_⟩
        intro c hc _
        exact haddr ▸ (Tiles.cons haddr hin htail).le_addr hc
      · rw [if_neg hb]
        rcases ih with ⟨c, hc, hfree, heq, hleast⟩ | ⟨hused, heq⟩
        · refine Or.inl ⟨c, List.mem_cons_of_mem b hc, hfree, heq, ?_⟩
          intro d hd hdfree
          rcases List.mem_cons.mp hd with rfl | hd
          · exact absurd hdfree hb
          · exact hleast d hd hdfree
        · exact Or.inr ⟨List.forall_mem_cons.mpr ⟨hb, hused⟩, heq⟩

theorem Tiles.namesFirstFree_iff (h : Tiles mem stop ptr bs) :
    NamesFirstFree stop bs v ↔ v = firstFree stop bs := by
  constructor
  · intro hv
    rcases h.namesFirstFree with ⟨c, hc, hcfree, hcv, hcleast⟩ | ⟨hall, hend⟩
    · rcases hv with ⟨b, hb, hbfree, hbv, hbleast⟩ | ⟨hall, -⟩
      · rw [← hbv, ← hcv]
        exact le_antisymm (hbleast c hc hcfree) (hcleast b hb hbfree)
      · exact absurd hcfree (hall c hc)
    · rcases hv with ⟨b, hb, hbfree, -⟩ | ⟨-, hv⟩
      · exact absurd hbfree (hall b hb)
      · rw [hv, hend]
  · rintro rfl
    exact h.namesFirstFree

theorem Tiles.tail_addr_ne (h : Tiles mem stop ptr (b :: bs)) (hc : c ∈ bs) :
    c.addr ≠ b.addr := by
  have hlt := List.rel_of_pairwise_cons h.pairwise hc
  simp only [Block.stop] at hlt
  omega

/-- A cell that names none of the blocks stays. -/
theorem coalesce_cell (h : coalesce b bs v = (c, cs, w))
    (hv : ∀ d ∈ bs, d.addr ≠ v) : w = v := by
  induction bs generalizing b with
  | nil =>
      cases h
      rfl
  | cons d ds ih =>
      by_cases hd : d.type = 0
      · rw [coalesce, if_pos hd, if_neg (hv d List.mem_cons_self)] at h
        exact ih h fun e he => hv e (List.mem_cons_of_mem d he)
      · rw [coalesce, if_neg hd] at h
        cases h
        rfl

namespace Allocates

variable {r : Option Block}

theorem cell_eq (h : Allocates stop size bs v r bs' v')
    (hv : ∀ d ∈ bs, d.addr ≠ v) : v' = v := by
  induction h with
  | exhausted => rfl
  | used hb htail ih =>
      exact ih fun d hd => hv d (List.mem_cons_of_mem _ hd)
  | small hb hmerge hsize htail ih =>
      have hw := coalesce_cell hmerge fun d hd =>
        hv d (List.mem_cons_of_mem _ hd)
      subst hw
      exact ih fun d hd =>
        hv d (List.mem_cons_of_mem _ ((coalesce_suffix hmerge).subset hd))
  | @found b c bs cs v w hb hmerge hsize =>
      have hw := coalesce_cell hmerge fun d hd =>
        hv d (List.mem_cons_of_mem _ hd)
      have hc : c.addr ≠ w := by
        rw [hw, (coalesce_head hmerge).1]
        exact hv b List.mem_cons_self
      rw [if_neg hc, hw]

theorem firstFree_eq (h : Allocates stop size bs v r bs' v')
    (hsorted : bs.Pairwise fun b c => c.addr ≠ b.addr)
    (hv : v = firstFree stop bs) : v' = firstFree stop bs' := by
  induction h with
  | exhausted => exact hv
  | used hb htail ih =>
      rw [firstFree, if_neg hb] at hv ⊢
      exact ih (List.pairwise_cons.mp hsorted).2 hv
  | small hb hmerge hsize htail ih =>
      obtain ⟨hhead, -⟩ := List.pairwise_cons.mp hsorted
      obtain ⟨haddr, htype⟩ := coalesce_head hmerge
      rw [firstFree, if_pos hb] at hv
      subst hv
      have hw := coalesce_cell hmerge hhead
      subst hw
      rw [firstFree, if_pos (htype.trans hb), haddr]
      exact htail.cell_eq fun d hd =>
        hhead d ((coalesce_suffix hmerge).subset hd)
  | @found b c bs cs v w hb hmerge hsize =>
      obtain ⟨hhead, -⟩ := List.pairwise_cons.mp hsorted
      rw [firstFree, if_pos hb] at hv
      subst hv
      have hw := coalesce_cell hmerge hhead
      rw [if_pos ((coalesce_head hmerge).1.trans hw.symm), firstFree,
        if_neg (by rw [taken_type]; decide)]

end Allocates

/-- A freed block above the cell draws the cell up to it. -/
theorem release_cell_of_lt (htiles : Tiles mem stop ptr bs) (hb : b ∈ bs)
    (hv : v < b.addr) : (release (b.addr + 4) bs v).2 = b.addr := by
  have hhere : ∀ {ptr bs}, Tiles mem stop ptr (b :: bs) →
      (coalesce b.freed bs (if v < b.addr then b.addr else v)).2.2 =
        b.addr := by
    intro ptr bs htiles
    rw [if_pos hv]
    exact coalesce_cell rfl fun d hd => htiles.tail_addr_ne hd
  induction htiles with
  | last haddr hin hused hreach hstop =>
      cases List.mem_singleton.mp hb
      rw [release, if_pos rfl]
      exact hhere (Tiles.last haddr hin hused hreach hstop)
  | @cons ptr c cs haddr hin htail ih =>
      have htiles := Tiles.cons haddr hin htail
      by_cases heq : c.addr = b.addr
      · obtain rfl : c = b := hin.unique (htiles.mem_in hb) heq
        rw [release, if_pos rfl]
        exact hhere htiles
      · rw [release, if_neg (by omega)]
        rcases List.mem_cons.mp hb with rfl | hb
        · exact absurd rfl heq
        · exact ih hb

/-- The cell after `brickos_free` has reached its block, with no free block
before it. -/
theorem coalesce_freed_iff (htiles : Tiles mem stop ptr (b :: bs))
    (htail : Tiles mem stop b.stop bs) (hwrap : stop % 65536 < b.addr)
    (h : coalesce b.freed bs (if firstFree stop bs < b.addr then b.addr
      else firstFree stop bs) = (c, cs, w)) :
    w = b.addr ↔ (∀ c ∈ bs, c.type ≠ 0) ∨ firstFree stop bs = b.stop := by
  rcases htail.namesFirstFree with ⟨d, hd, hdfree, hv, -⟩ | ⟨hall, hv⟩
  · -- some block behind it is free
    have hle := htail.le_addr hd
    have hbstop : b.addr < b.stop := by
      simp only [Block.stop]
      omega
    rw [if_neg (by omega)] at h
    have hsome : ¬∀ c ∈ bs, c.type ≠ 0 := fun hall => hall d hd hdfree
    cases bs with
    | nil => cases hd
    | cons e es =>
        have headdr : e.addr = b.stop := by
          cases htail <;> assumption
        by_cases he : e.type = 0
        · -- the next block is free, so it is the one the cell names
          have hfirst : firstFree stop (e :: es) = e.addr := by
            rw [firstFree, if_pos he]
          rw [hfirst] at h ⊢
          rw [coalesce, if_pos he, if_pos rfl, Block.freed_addr] at h
          have hw := coalesce_cell h fun d hd =>
            htiles.tail_addr_ne (List.mem_cons_of_mem e hd)
          exact iff_of_true hw (Or.inr headdr)
        · rw [coalesce, if_neg he] at h
          have hw : firstFree stop (e :: es) = w := by
            simpa only [Prod.mk.injEq] using
              (congrArg (fun t => t.2.2) h)
          have hlater : e.addr < d.addr := by
            rcases List.mem_cons.mp hd with rfl | hd
            · exact absurd hdfree he
            · have hlt := List.rel_of_pairwise_cons htail.pairwise hd
              simp only [Block.stop] at hlt
              omega
          apply iff_of_false
          · omega
          · rintro (hall | heq)
            · exact hsome hall
            · omega
  · rw [hv, if_pos hwrap] at h
    have hw := coalesce_cell h fun d hd => htiles.tail_addr_ne hd
    exact iff_of_true hw (Or.inl hall)

/-- When `brickos_free` leaves the cell right. -/
theorem release_firstFree_iff (htiles : Tiles mem stop ptr bs)
    (hwrap : stop % 65536 < ptr) (hb : b ∈ bs.dropLast)
    (hused : b.type ≠ 0) :
    (release (b.addr + 4) bs (firstFree stop bs)).2 =
        firstFree stop (release (b.addr + 4) bs (firstFree stop bs)).1 ↔
      (∀ c ∈ bs, c.type ≠ 0) ∨ firstFree stop bs = b.stop := by
  induction htiles with
  | last => simp at hb
  | @cons ptr c cs haddr hin htail ih =>
      have htiles := Tiles.cons haddr hin htail
      have hbmem : b ∈ c :: cs := List.dropLast_subset _ hb
      by_cases heq : c.addr = b.addr
      · obtain rfl : c = b := hin.unique (htiles.mem_in hbmem) heq
        obtain ⟨d, ds, w, hmerge⟩ : ∃ d ds w, coalesce c.freed cs
            (if firstFree stop cs < c.addr then c.addr
              else firstFree stop cs) = (d, ds, w) := ⟨_, _, _, rfl⟩
        obtain ⟨hdaddr, hdtype⟩ := coalesce_head hmerge
        have hiff := coalesce_freed_iff htiles htail (by omega) hmerge
        have hdfree : d.type = 0 := hdtype
        rw [firstFree, if_neg hused, release, if_pos rfl, hmerge]
        simp only [firstFree, if_pos hdfree]
        rw [hdaddr, Block.freed_addr, hiff, List.forall_mem_cons,
          and_iff_right hused]
      · have hrest : b ∈ cs.dropLast := by
          cases cs with
          | nil => cases htail
          | cons d ds =>
              rcases List.mem_cons.mp hb with rfl | hb
              · exact absurd rfl heq
              · exact hb
        have hlater : c.stop ≤ b.addr :=
          htail.le_addr (List.dropLast_subset _ hrest)
        have hcstop : c.addr < c.stop := by
          simp only [Block.stop]
          omega
        rw [release, if_neg (by omega), firstFree]
        by_cases hc : c.type = 0
        · -- a lower free block is lost
          simp only [if_pos hc, firstFree]
          rw [release_cell_of_lt htail (List.dropLast_subset _ hrest)
            (by omega)]
          apply iff_of_false
          · omega
          · rintro (hall | heq')
            · exact hall c List.mem_cons_self hc
            · simp only [Block.stop] at heq'
              omega
        · simp only [if_neg hc, firstFree]
          rw [ih (by omega) hrest, List.forall_mem_cons, and_iff_right hc]

end Lists

namespace BrickosHeap

variable {mmStart cell : ℕ}

def FirstFreeRight (heap : BrickosHeap mmStart cell) : Prop :=
  NamesFirstFree heap.stop heap.blocks (heap.memory.readWord cell)

/-- No block is free, or the lowest free block is the one behind the block
that is freed. -/
def FreesBelowFirst (heap : BrickosHeap mmStart cell) : HeapCall → Prop
  | .malloc _ => True
  | .free addr =>
      (∀ b ∈ heap.blocks, b.type ≠ 0) ∨
        ∃ b ∈ heap.blocks, b.addr + 4 = addr ∧
          firstFree heap.stop heap.blocks = b.stop

/-- The cell is right after every call of the sequence. -/
def RightCalls (allowed : BrickosHeap mmStart cell → HeapCall → Prop) :
    List HeapCall → BrickosHeap mmStart cell → Prop
  | [], _ => True
  | call :: calls, heap =>
      allowed heap call →
        ∃ result heap', heap.Outcome call result heap' ∧
          heap'.FirstFreeRight ∧ RightCalls allowed calls heap'

/-- Every call of the sequence meets the condition in the heap in which it is
made. -/
def MeetCalls (allowed condition : BrickosHeap mmStart cell → HeapCall → Prop) :
    List HeapCall → BrickosHeap mmStart cell → Prop
  | [], _ => True
  | call :: calls, heap =>
      allowed heap call → condition heap call ∧
        ∀ result heap', heap.Outcome call result heap' →
          MeetCalls allowed condition calls heap'

variable {heap heap' heap'' : BrickosHeap mmStart cell} {call : HeapCall}
  {result : ℕ}

theorem ext_of_memory (h : heap.memory = heap'.memory) : heap = heap' := by
  obtain ⟨mem, bs, stop, htiles, _, _, _⟩ := heap
  obtain ⟨mem', bs', stop', htiles', _, _, _⟩ := heap'
  obtain rfl : mem = mem' := h
  obtain ⟨rfl, rfl⟩ := htiles.unique htiles'
  rfl

theorem Outcome.unique {result' : ℕ} (h : heap.Outcome call result heap')
    (h' : heap.Outcome call result' heap'') : heap' = heap'' := by
  have heq := h.performed.symm.trans h'.performed
  apply ext_of_memory
  simpa using (congrArg (fun r => r.map Prod.snd) heq)

theorem malloc_firstFreeRight {size : ℕ} (hright : heap.FirstFreeRight)
    (h : heap.Outcome (.malloc size) result heap') : heap'.FirstFreeRight := by
  obtain ⟨r, bs', mem', htiles, hrun, hallocates, -⟩ :=
    heap.malloc_refines size
  have hmemory : heap' = heap.after htiles := by
    apply ext_of_memory
    have heq := h.performed.symm.trans hrun
    simpa using (congrArg (fun r => r.map Prod.snd) heq)
  subst hmemory
  have hsorted : heap.blocks.Pairwise fun b c => c.addr ≠ b.addr := by
    apply heap.tiles.pairwise.imp
    intro b c hstop
    simp only [Block.stop] at hstop
    omega
  exact htiles.namesFirstFree_iff.mpr
    (hallocates.firstFree_eq hsorted (heap.tiles.namesFirstFree_iff.mp hright))

theorem free_firstFreeRight_iff {addr : ℕ} (hright : heap.FirstFreeRight)
    (hallowed : heap.FreesBeforeLast (.free addr))
    (h : heap.Outcome (.free addr) result heap') :
    heap'.FirstFreeRight ↔ heap.FreesBelowFirst (.free addr) := by
  obtain ⟨b, hb, hused, rfl⟩ := hallowed
  obtain ⟨bs', mem', htiles, hrun, hrelease, -⟩ := heap.free_refines hb
  have hmemory : heap' = heap.after htiles := by
    apply ext_of_memory
    have heq := h.performed
    rw [HeapCall.perform, hrun] at heq
    simpa using (congrArg (fun r => r.map Prod.snd) heq).symm
  subst hmemory
  have hwrap : heap.stop % 65536 < mmStart := by
    have hwraps := heap.wraps
    have hreach := heap.tiles.reach
    omega
  have hiff := release_firstFree_iff heap.tiles hwrap hb hused
  rw [← heap.tiles.namesFirstFree_iff.mp hright, hrelease] at hiff
  rw [FirstFreeRight, (heap.after htiles).tiles.namesFirstFree_iff]
  refine hiff.trans (or_congr_right ?_)
  rw [heap.tiles.namesFirstFree_iff.mp hright]
  constructor
  · exact fun hnext => ⟨b, List.dropLast_subset _ hb, rfl, hnext⟩
  · rintro ⟨c, hc, haddr, hnext⟩
    have hmem := heap.tiles.mem_in (List.dropLast_subset _ hb)
    obtain rfl : c = b := (heap.tiles.mem_in hc).unique hmem (by omega)
    exact hnext

theorem firstFreeRight_iff (hright : heap.FirstFreeRight)
    (hallowed : heap.FreesBeforeLast call)
    (h : heap.Outcome call result heap') :
    heap'.FirstFreeRight ↔ heap.FreesBelowFirst call := by
  cases call with
  | malloc size => exact iff_of_true (malloc_firstFreeRight hright h) trivial
  | free addr => exact free_firstFreeRight_iff hright hallowed h

/-- The cell is right after every call exactly when every block that is freed
is freed below the first free block, right before it. -/
theorem rightCalls_iff (heap : BrickosHeap mmStart cell)
    (calls : List HeapCall) (hright : heap.FirstFreeRight) :
    RightCalls FreesBeforeLast calls heap ↔
      MeetCalls FreesBeforeLast FreesBelowFirst calls heap := by
  induction calls generalizing heap with
  | nil => exact Iff.rfl
  | cons call calls ih =>
      apply imp_congr_right
      intro hallowed
      obtain ⟨result, heap', houtcome⟩ := heap.outcome hallowed
      have hiff := firstFreeRight_iff hright hallowed houtcome
      constructor
      · rintro ⟨result₁, heap₁, houtcome₁, hright₁, hcalls⟩
        obtain rfl := houtcome.unique houtcome₁
        refine ⟨hiff.mp hright₁, ?_⟩
        intro result₂ heap₂ houtcome₂
        obtain rfl := houtcome.unique houtcome₂
        exact (ih heap' hright₁).mp hcalls
      · rintro ⟨hcondition, hcalls⟩
        have hright' := hiff.mpr hcondition
        exact ⟨result, heap', houtcome, hright',
          (ih heap' hright').mpr (hcalls result heap' houtcome)⟩

/-- Two small blocks of the given types and the end marker. -/
def twoBlocks (cell type type' : ℕ) : Memory :=
  ofWords [(0x7ffe, cell), (0x8000, type), (0x8002, 2), (0x8008, type'),
    (0x800a, 2), (0x8010, 0xffff), (0x8012, 0x3ff6)]

/-- An allocated block with a free block behind it. -/
def usedThenFree : BrickosHeap 0x8000 0x7ffe where
  memory := twoBlocks 0x8008 0xfffe 0
  blocks := [⟨0x8000, 0xfffe, 2⟩, ⟨0x8008, 0, 2⟩, ⟨0x8010, 0xffff, 0x3ff6⟩]
  stop := 0x10000
  tiles := .cons rfl (by decide +kernel)
    (.cons rfl (by decide +kernel)
      (.last rfl (by decide +kernel) (by decide) (by decide) rfl))
  wraps := brickos_wraps
  above := brickos_above
  below := brickos_below

/-- A free block with an allocated block behind it. -/
def freeThenUsed : BrickosHeap 0x8000 0x7ffe where
  memory := twoBlocks 0x8000 0 0xfffe
  blocks := [⟨0x8000, 0, 2⟩, ⟨0x8008, 0xfffe, 2⟩, ⟨0x8010, 0xffff, 0x3ff6⟩]
  stop := 0x10000
  tiles := .cons rfl (by decide +kernel)
    (.cons rfl (by decide +kernel)
      (.last rfl (by decide +kernel) (by decide) (by decide) rfl))
  wraps := brickos_wraps
  above := brickos_above
  below := brickos_below

theorem rightCalls_usedThenFree :
    RightCalls FreesBeforeLast [.free 0x8004] usedThenFree := by
  have hright : usedThenFree.FirstFreeRight :=
    usedThenFree.tiles.namesFirstFree_iff.mpr (by decide +kernel)
  apply (rightCalls_iff usedThenFree [.free 0x8004] hright).mpr
  intro _
  refine ⟨Or.inr ⟨⟨0x8000, 0xfffe, 2⟩, ?_, rfl, by decide⟩, ?_⟩
  · exact List.mem_cons_self
  · exact fun _ _ _ => trivial

/-- Freeing a block above the first free block loses that one. -/
theorem free_above_loses_firstFree :
    freeThenUsed.FirstFreeRight ∧
      ¬RightCalls FreesAllocated [.free 0x800c] freeThenUsed := by
  have hright : freeThenUsed.FirstFreeRight :=
    freeThenUsed.tiles.namesFirstFree_iff.mpr (by decide +kernel)
  have hmem : ⟨0x8008, 0xfffe, 2⟩ ∈ freeThenUsed.blocks := by
    simp [freeThenUsed]
  refine ⟨hright, fun hcalls => ?_⟩
  obtain ⟨result, heap', houtcome, hright', -⟩ :=
    hcalls ⟨⟨0x8008, 0xfffe, 2⟩, hmem, by decide, rfl⟩
  have hallowed : freeThenUsed.FreesBeforeLast (.free 0x800c) :=
    ⟨⟨0x8008, 0xfffe, 2⟩, by simp [freeThenUsed], by decide, rfl⟩
  rcases (free_firstFreeRight_iff hright hallowed houtcome).mp hright' with
    hall | ⟨b, hb, haddr, hnext⟩
  · exact hall ⟨0x8000, 0, 2⟩ List.mem_cons_self rfl
  · have hfirst : firstFree freeThenUsed.stop freeThenUsed.blocks =
        0x8000 := by
      decide
    rw [hfirst] at hnext
    simp only [Block.stop] at hnext
    omega

end BrickosHeap

end BrickEmu
