import BrickEmu.BiboSteps
import BrickEmu.BrickosCalls

/-!
# Sequences of calls on the BiBo heap

A call that meets the condition leads from a heap to a heap.  The other
calls leave a flag, a back pointer or a link of the free list behind.
-/

namespace BrickEmu

open Memory

def HeapCall.performBibo (cell : ℕ) (mem : Memory) :
    HeapCall → Option (ℕ × Memory)
  | .malloc size => biboMalloc cell size mem
  | .free addr => (biboFree cell addr mem).map (Prod.mk 0)

namespace BiboHeap

variable {mmStart cell : ℕ}

def FreesAllocated (heap : BiboHeap mmStart cell) : HeapCall → Prop
  | .malloc _ => True
  | .free addr => ∃ b ∈ heap.blocks, b.owner ≠ 0 ∧ b.addr + 6 = addr

/-- The block that `bibo_malloc` finds. -/
def firstFit (heap : BiboHeap mmStart cell) (size : ℕ) : Option BiboBlock :=
  heap.blocks.find? fun b => b.owner = 0 ∧ roundSize size + 4 ≤ b.extent

/-- `bibo_malloc` finds nothing, splits a block other than the last or takes
the last block whole; `bibo_free` frees a block behind a free block, or
before a free block that is the last, and never the last block. -/
def Careful (heap : BiboHeap mmStart cell) : HeapCall → Prop
  | .malloc size =>
      ∀ p, heap.firstFit size = some p →
        if p.next = 0 then p.extent < roundSize size + 12
        else roundSize size ≠ 0 ∧ roundSize size + 12 ≤ p.extent
  | .free addr =>
      ∃ pre b n post, heap.blocks = pre ++ b :: n :: post ∧
        b.addr + 6 = addr ∧
          ((∃ front p, pre = front ++ [p] ∧ p.owner = 0) ∨
            (n.owner = 0 ∧ post = []))

/-- The heap is well formed after every call of the sequence. -/
def SoundCalls : List HeapCall → BiboHeap mmStart cell → Prop
  | [], _ => True
  | call :: calls, heap =>
      heap.FreesAllocated call →
        ∃ result, ∃ heap' : BiboHeap mmStart cell,
          call.performBibo cell heap.memory = some (result, heap'.memory) ∧
            SoundCalls calls heap'

/-- Every call of the sequence is careful in the heap in which it is made. -/
def CarefulCalls : List HeapCall → BiboHeap mmStart cell → Prop
  | [], _ => True
  | call :: calls, heap =>
      heap.FreesAllocated call →
        heap.Careful call ∧
          ∀ result, ∀ heap' : BiboHeap mmStart cell,
            call.performBibo cell heap.memory =
                some (result, heap'.memory) →
              CarefulCalls calls heap'

variable (heap : BiboHeap mmStart cell)

theorem free_in {b : BiboBlock} (hb : b ∈ heap.blocks) :
    2 ≤ b.addr ∧ b.addr + 8 ≤ 65536 := by
  obtain ⟨_, hin⟩ := heap.chain.mem_in hb
  exact ⟨hin.pos, hin.room⟩

theorem freeAddrs_length : (freeAddrs heap.blocks).length < linkLimit := by
  have hsorted := freeAddrs_pairwise heap.chain
  have hnodup : (freeAddrs heap.blocks).Nodup := by
    apply hsorted.imp
    intro f g hle heq
    omega
  have hsub : freeAddrs heap.blocks ⊆ List.range 65535 := by
    intro f hf
    obtain ⟨b, hb, -, rfl⟩ := mem_freeAddrs.mp hf
    have := heap.free_in hb
    exact List.mem_range.mpr (by omega)
  have hle := (List.subperm_of_subset hnodup hsub).length_le
  rw [List.length_range] at hle
  unfold linkLimit
  omega

theorem cell_le (heap : BiboHeap mmStart cell) : cell ≤ mmStart - 2 := by
  have := heap.high
  omega

/-- The size that `bibo_malloc` computes for a free block of the heap. -/
theorem blocksize {b : BiboBlock} (hb : b ∈ heap.blocks)
    (hfree : b.owner = 0) :
    (heap.memory.readWord (b.addr + 2) + 65536 - b.addr) % 65536 =
      b.extent := by
  obtain ⟨_, hin⟩ := heap.chain.mem_in hb
  exact hin.blocksize hfree

theorem malloc_none {size : ℕ} (hfit : heap.firstFit size = none) :
    biboMalloc cell size heap.memory = some (0, heap.memory) := by
  apply biboMallocFrom_none heap.links _ heap.freeAddrs_length
  intro g hg
  obtain ⟨b, hb, hfree, rfl⟩ := mem_freeAddrs.mp hg
  have hbounds := heap.free_in hb
  refine ⟨hbounds.1, hbounds.2, ?_⟩
  rw [heap.blocksize hb hfree]
  intro hle
  have hnot := List.find?_eq_none.mp hfit b hb
  simp [hfree, hle] at hnot

theorem malloc_some {size : ℕ} {pre post : List BiboBlock} {p : BiboBlock}
    (hblocks : heap.blocks = pre ++ p :: post) (hp : p.owner = 0)
    (hfit : roundSize size + 4 ≤ p.extent)
    (hsmall : ∀ c ∈ pre, c.owner = 0 → ¬roundSize size + 4 ≤ c.extent) :
    biboMalloc cell size heap.memory =
      some (p.addr + 6, takeFree (roundSize size) (pointer cell pre) p.addr
        p.extent heap.memory) := by
  have hmem : p ∈ heap.blocks := by simp [hblocks]
  have hbounds := heap.free_in hmem
  have hlinks := heap.links
  have hlength := heap.freeAddrs_length
  rw [hblocks, freeAddrs_append, freeAddrs_cons_free hp] at hlinks
  rw [hblocks, freeAddrs_append, List.length_append] at hlength
  rw [biboMalloc, ← heap.blocksize hmem hp]
  apply biboMallocFrom_some hlinks _ hbounds.1 hbounds.2
  · rw [heap.blocksize hmem hp]
    exact hfit
  · exact lt_of_le_of_lt (Nat.le_add_right _ _) hlength
  · intro g hg
    obtain ⟨c, hc, hfree, rfl⟩ := mem_freeAddrs.mp hg
    have hcmem : c ∈ heap.blocks := by simp [hblocks, hc]
    have hcbounds := heap.free_in hcmem
    refine ⟨hcbounds.1, hcbounds.2, ?_⟩
    rw [heap.blocksize hcmem hfree]
    exact hsmall c hc hfree

/-- The memory after a call as a heap. -/
def changed {mem : Memory} {bs : List BiboBlock} {t : Option ℕ}
    (hchain : Stretch mem none (mmStart - 2) bs t 0)
    (hlinks : Linked mem cell (freeAddrs bs)) : BiboHeap mmStart cell :=
  ⟨mem, bs, t, hchain, hlinks, heap.start, heap.low, heap.high⟩

/-- A call leaves alone the allocated blocks, but for the one with the given
payload, and the memory outside the heap.  Word 0 may be taken for the back
pointer of a block behind the last one. -/
structure Keeps (heap' : BiboHeap mmStart cell) (addr : ℕ) : Prop where
  blocks : ∀ c ∈ heap.blocks, c.owner ≠ 0 → c.addr + 6 ≠ addr →
    c ∈ heap'.blocks
  memory : ∀ x, 2 ≤ x → x + 2 < mmStart → x ≠ cell → x ≠ cell + 1 →
    heap'.memory x = heap.memory x

/-- The result of `bibo_malloc` is the payload of a new block, which begins
where the free block did. -/
def Grants (heap' : BiboHeap mmStart cell) (size result : ℕ) : Prop :=
  ∃ p, heap.firstFit size = some p ∧ p.addr + 6 = result ∧
    ⟨p.addr, if p.next = 0 then 0 else p.addr + roundSize size + 4,
      0xfffe⟩ ∈ heap'.blocks

/-- The pointers of the free list lie in the heap, but for the cell. -/
theorem ne_pointer {pre post : List BiboBlock} {b : BiboBlock} {x : ℕ}
    (hchain : Stretch heap.memory none (mmStart - 2) (pre ++ b :: post)
      heap.after 0)
    (hx : x + 2 < mmStart) (hcell : x ≠ cell) (hcell' : x ≠ cell + 1) :
    x ≠ pointer cell pre ∧ x ≠ pointer cell pre + 1 := by
  rcases pointer_cases cell hchain with hp | ⟨f, -, -, hf, -, hp⟩
  · omega
  · omega

theorem malloc_careful {size : ℕ} (hcareful : heap.Careful (.malloc size)) :
    ∃ result, ∃ heap' : BiboHeap mmStart cell,
      biboMalloc cell size heap.memory = some (result, heap'.memory) ∧
        heap.Keeps heap' 0 ∧
          (result ≠ 0 → heap.Grants heap' size result) := by
  have hcell := heap.cell_le
  cases hfit : heap.firstFit size with
  | none =>
      refine ⟨0, heap, heap.malloc_none hfit, ⟨?_, fun _ _ _ _ _ => rfl⟩, ?_⟩
      · exact fun c hc _ _ => hc
      · exact fun hne => absurd rfl hne
  | some p =>
      obtain ⟨hp, pre, post, hblocks, hsmall⟩ :=
        List.find?_eq_some_iff_append.mp hfit
      have hcondition := hcareful p hfit
      obtain ⟨hp, hsize⟩ : p.owner = 0 ∧ roundSize size + 4 ≤ p.extent := by
        simpa using hp
      have hrun := heap.malloc_some hblocks hp hsize (by
        intro c hc hfree hle
        have hnot := hsmall c hc
        simp [hfree, hle] at hnot)
      have hchain := heap.chain
      have hlinks := heap.links
      rw [hblocks] at hchain hlinks
      obtain ⟨u, hleft, hpin, hright⟩ := hchain.at_block
      have hpnext := Stretch.next_lt hpin
      have hstart : mmStart - 2 ≤ p.addr := hchain.le_addr (by simp)
      by_cases hlast : p.next = 0
      · -- the last block is taken whole
        rw [if_pos hlast] at hcondition
        obtain rfl : post = [] := by
          cases post with
          | nil => rfl
          | cons q qs =>
              obtain ⟨hq, hqin, -⟩ := hright.of_cons
              have := hqin.pos
              omega
        have hlink : (heap.memory.writeWord (p.addr + 4) 0xfffe).readWord
            (p.addr + 6) = 0 := by
          rw [readWord_writeWord_of_apart (by omega)]
          rw [freeAddrs_append, freeAddrs_cons_free hp, linked_append,
            linked_cons] at hlinks
          exact hlinks.2.2.2
        obtain ⟨hchain', hlinks'⟩ :=
          Stretch.takeLast hp hchain hcell hlinks
        refine ⟨p.addr + 6, heap.changed hchain' hlinks', ?_, ⟨?_, ?_⟩, ?_⟩
        · rw [hrun, takeFree, if_neg (by omega), hlink]
          rfl
        · intro c hc hused _
          have hne : c ≠ p := by
            rintro rfl
            exact hused hp
          rw [hblocks] at hc
          simp only [List.mem_append, List.mem_singleton] at hc
          exact List.mem_append_left _ (hc.resolve_right hne)
        · intro x _ hx hne hne'
          obtain ⟨hword, hword'⟩ := heap.ne_pointer hchain hx hne hne'
          apply (writeWord_of_ne hword hword').trans
          apply writeWord_of_ne <;> omega
        · intro _
          refine ⟨p, hfit, rfl, ?_⟩
          rw [if_pos hlast]
          exact List.mem_append_right _ (List.mem_singleton_self _)
      · rw [if_neg hlast] at hcondition
        have hextent : p.extent = p.next - p.addr := if_neg hlast
        have heven := hpin.even
        have hround : roundSize size % 2 = 0 := by
          simp only [roundSize, clearFlag]
          omega
        have hfits : p.addr + roundSize size + 12 ≤ p.next := by
          omega
        have hmem := takeFree_divided heap.memory
          (by omega : 2 ≤ roundSize size) hfits
          (pointer_le hchain hcell) hpnext
        obtain ⟨after', hchain'⟩ :=
          hchain.divide hp hcell (by omega) (by omega) (by omega) hmem
        have hlinks' := links_divide hchain hp hcell hmem hlinks
        refine ⟨p.addr + 6, heap.changed hchain' hlinks', ?_, ⟨?_, ?_⟩, ?_⟩
        · rw [hrun, hextent]
          rfl
        · intro c hc hused _
          have hne : c ≠ p := by
            rintro rfl
            exact hused hp
          rw [hblocks] at hc
          simp only [List.mem_append, List.mem_cons, hne, false_or] at hc
          simp only [changed, List.mem_append, List.mem_cons]
          exact hc.imp_right fun hc => Or.inr (Or.inr hc)
        · intro x _ hx hne hne'
          obtain ⟨hword, hword'⟩ := heap.ne_pointer hchain hx hne hne'
          exact hmem.same x (by omega) hword hword'
        · intro _
          refine ⟨p, hfit, rfl, ?_⟩
          rw [if_neg hlast]
          exact List.mem_append_right _ List.mem_cons_self

/-- `bibo_free` finds the block by its payload address. -/
theorem free_addr {b : BiboBlock} (hb : b ∈ heap.blocks) :
    biboFree cell (b.addr + 6) heap.memory =
      if heap.memory.readWord (b.addr + 2) % 2 = 1 then
        some (mergeWithPrevious b.addr
          (clearFlag (heap.memory.readWord (b.addr + 2))) heap.memory)
      else
        match findPlace b.addr (heap.memory.writeWord (b.addr + 4) 0)
          linkLimit cell with
        | none => none
        | some (prev, prevnext) =>
            some (enqueue b.addr (heap.memory.readWord (b.addr + 2)) prev
              prevnext (heap.memory.writeWord (b.addr + 4) 0)) := by
  have hbounds := heap.free_in hb
  have haddr : (b.addr + 6 + 65536 - 6) % 65536 = b.addr := by
    omega
  rw [biboFree, if_neg (by omega)]
  generalize (b.addr + 6 + 65536 - 6) % 65536 = addr at haddr ⊢
  subst haddr
  rfl

/-- Freeing a block behind a free one. -/
theorem free_behind_free {front post : List BiboBlock}
    {p b n : BiboBlock} (hblocks : heap.blocks = front ++ p :: b :: n :: post)
    (hp : p.owner = 0) :
    ∃ heap' : BiboHeap mmStart cell,
      biboFree cell (b.addr + 6) heap.memory = some heap'.memory ∧
        heap.Keeps heap' (b.addr + 6) := by
  have hchain := heap.chain
  have hlinks := heap.links
  rw [hblocks] at hchain hlinks
  have h := hchain.surrounded hp
  have hword : heap.memory.readWord (b.addr + 2) = n.addr + 1 := by
    rw [h.block.word, h.nextPlace]
    rfl
  have heven := h.next.even
  have hnext : clearFlag (n.addr + 1) = n.addr := by
    unfold clearFlag
    omega
  have hstart := h.start_le
  have hsize := h.size
  have hblockSize := h.blockSize
  have hmemCases : ∀ c ∈ heap.blocks, c.owner ≠ 0 →
      c.addr + 6 ≠ b.addr + 6 → c ∈ front ∨ c = n ∨ c ∈ post := by
    intro c hc hused hother
    have hcp : c ≠ p := by
      rintro rfl
      exact hused hp
    have hcb : c ≠ b := by
      rintro rfl
      exact hother rfl
    rw [hblocks] at hc
    simpa only [List.mem_append, List.mem_cons, hcp, hcb, false_or] using hc
  rw [heap.free_addr (by simp [hblocks]), hword, if_pos (by omega), hnext]
  by_cases hn : n.owner = 0
  · have hmem := h.merge_free hn
    obtain ⟨after', hchain'⟩ := h.free_joining hn hmem
    have hlinks' := h.links_joining hn heap.low heap.cell_le hmem hlinks
    refine ⟨heap.changed hchain' hlinks', rfl, ?_, ?_⟩
    · intro c hc hused hother
      rcases hmemCases c hc hused hother with hc | rfl | hc
      · exact List.mem_append_left _ hc
      · exact absurd hn hused
      · exact List.mem_append_right _ (List.mem_cons_of_mem _ hc)
    · intro x hlow hx _ _
      have hnextPlace := h.next.size
      apply hmem.same <;> omega
  · have hmem := h.merge_used hn
    have hchain' := h.free_between hn hmem
    have hlinks' := h.links_between hn heap.cell_le hmem hlinks
    refine ⟨heap.changed hchain' hlinks', rfl, ?_, ?_⟩
    · intro c hc hused hother
      simp only [changed, List.mem_append, List.mem_cons]
      rcases hmemCases c hc hused hother with hc | rfl | hc
      · exact Or.inl hc
      · exact Or.inr (Or.inr (Or.inl rfl))
      · exact Or.inr (Or.inr (Or.inr hc))
    · intro x _ hx _ _
      exact hmem.same x (by omega)

/-- The place of an allocated block in the free list. -/
theorem find_place {pre post : List BiboBlock} {b : BiboBlock}
    (hblocks : heap.blocks = pre ++ b :: post) (hused : b.owner ≠ 0) :
    findPlace b.addr (heap.memory.writeWord (b.addr + 4) 0) linkLimit cell =
      some (pointer cell pre, (freeAddrs post).headD 0) := by
  have hcell := heap.cell_le
  have hchain := heap.chain
  have hlinks := heap.links
  have hlength := heap.freeAddrs_length
  rw [hblocks] at hchain
  rw [hblocks, freeAddrs_append, freeAddrs_cons_used hused]
    at hlinks hlength
  obtain ⟨hbefore, hbehind⟩ := hchain.around
  have hstart : mmStart - 2 ≤ b.addr := hchain.le_addr (by simp)
  have hpre : ∀ f ∈ freeAddrs pre,
      2 ≤ f ∧ f + 8 ≤ 65536 ∧ f + 8 ≤ b.addr := by
    intro f hf
    obtain ⟨c, hc, hfree, rfl⟩ := mem_freeAddrs.mp hf
    have hin := heap.free_in (b := c) (by simp [hblocks, hc])
    have hcb := hbefore c hc
    have := hcb.next_le
    have := hcb.freeSize hfree
    omega
  have hpost : ∀ f ∈ freeAddrs post, b.addr + 4 ≤ f := by
    intro f hf
    obtain ⟨c, hc, -, rfl⟩ := mem_freeAddrs.mp hf
    have hbc := hbehind c hc
    have := hbc.next_le
    have := hbc.size
    omega
  -- the free list is the same after the owner has been cleared
  have hlinks' : Linked (heap.memory.writeWord (b.addr + 4) 0) cell
      (freeAddrs pre ++ freeAddrs post) := by
    apply hlinks.transport
    · exact readWord_writeWord_of_apart (by omega)
    · intro f hf
      apply readWord_writeWord_of_apart
      rcases List.mem_append.mp hf with hf | hf
      · have := hpre f hf
        omega
      · have := hpost f hf
        omega
  apply findPlace_eq hlinks'
  · intro f hf
    have := hpre f hf
    omega
  · cases hfree : freeAddrs post with
    | nil => exact Or.inl rfl
    | cons f fs =>
        have := hpost f (by simp [hfree])
        exact Or.inr (by simp only [List.headD_cons]; omega)
  · rw [List.length_append] at hlength
    omega

/-- Freeing the block before the last one, which is free. -/
theorem free_before_last {pre : List BiboBlock} {b n : BiboBlock}
    (hblocks : heap.blocks = pre ++ [b, n]) (hn : n.owner = 0)
    (hb : b.In heap.memory none)
    (hleft : Stretch heap.memory none (mmStart - 2) pre none b.addr) :
    ∃ heap' : BiboHeap mmStart cell,
      biboFree cell (b.addr + 6) heap.memory = some heap'.memory ∧
        heap.Keeps heap' (b.addr + 6) := by
  have hcell := heap.cell_le
  have hchain := heap.chain
  have hlinks := heap.links
  rw [hblocks] at hchain hlinks
  obtain ⟨_, -, -, hright⟩ := hchain.at_block
  obtain ⟨hplace, hnin, hright⟩ := hright.of_cons
  have hbtag := hnin.apart hn
  have hused : b.owner ≠ 0 := by
    intro hfree
    rw [Stretch.tag_free hfree] at hbtag
    cases hbtag
  rw [hbtag] at hnin
  have hlast : n.next = 0 := hright.of_nil.2
  have hsize : b.addr + 4 ≤ n.addr := by
    have := hb.size
    have := hnin.pos
    omega
  rw [freeAddrs_append, freeAddrs_cons_used hused,
    freeAddrs_cons_free hn] at hlinks
  have hlink : heap.memory.readWord (n.addr + 6) = 0 :=
    ((linked_cons.mp (linked_append.mp hlinks).2).2).2
  have hmem := enqueue_last hchain hn hsize hnin hlast hcell hlink
  have hfind := heap.find_place hblocks hused
  rw [freeAddrs_cons_free hn, List.headD_cons] at hfind
  have hword : heap.memory.readWord (b.addr + 2) = n.addr := by
    rw [hb.word, hplace]
    rfl
  have heven := hnin.even
  rw [heap.free_addr (by simp [hblocks]), hword, if_neg (by omega), hfind]
  refine ⟨heap.changed (hchain.free_last hleft hb hcell hmem)
    (links_last hchain hcell hmem hlinks), rfl, ?_, ?_⟩
  · intro c hc hcused hother
    have hcb : c ≠ b := by
      rintro rfl
      exact hother rfl
    have hcn : c ≠ n := by
      rintro rfl
      exact hcused hn
    rw [hblocks] at hc
    simp only [List.mem_append, List.mem_cons, hcb, hcn, List.not_mem_nil,
      or_false] at hc
    exact List.mem_append_left _ hc
  · intro x _ hx hne hne'
    have hstart : mmStart - 2 ≤ b.addr := hchain.le_addr (by simp)
    obtain ⟨hword, hword'⟩ := heap.ne_pointer hchain hx hne hne'
    exact hmem.same x (by omega) hword hword'

theorem free_careful {addr : ℕ} (hcareful : heap.Careful (.free addr)) :
    ∃ heap' : BiboHeap mmStart cell,
      biboFree cell addr heap.memory = some heap'.memory ∧
        heap.Keeps heap' addr := by
  obtain ⟨pre, b, n, post, hblocks, rfl, hcase⟩ := hcareful
  have hchain := heap.chain
  rw [hblocks] at hchain
  obtain ⟨u, hleft, hb, -⟩ := hchain.at_block
  by_cases hprev : ∃ front p, pre = front ++ [p] ∧ p.owner = 0
  · obtain ⟨front, p, rfl, hp⟩ := hprev
    exact heap.free_behind_free (by simpa using hblocks) hp
  · obtain ⟨hn, rfl⟩ := hcase.resolve_left hprev
    cases u with
    | some q => exact absurd hleft.tagged hprev
    | none => exact heap.free_before_last hblocks hn hb hleft

/-- In a sequence of careful calls the heap stays well formed. -/
theorem soundCalls_of_careful (calls : List HeapCall)
    (hcareful : CarefulCalls calls heap) : SoundCalls calls heap := by
  induction calls generalizing heap with
  | nil => trivial
  | cons call calls ih =>
      intro hallowed
      obtain ⟨hcall, hcalls⟩ := hcareful hallowed
      obtain ⟨result, heap', hrun⟩ : ∃ result,
          ∃ heap' : BiboHeap mmStart cell,
            call.performBibo cell heap.memory =
              some (result, heap'.memory) := by
        cases call with
        | malloc size =>
            obtain ⟨result, heap', hrun, -⟩ := heap.malloc_careful hcall
            exact ⟨result, heap', hrun⟩
        | free addr =>
            obtain ⟨heap', hrun, -⟩ := heap.free_careful hcall
            exact ⟨0, heap', by rw [HeapCall.performBibo, hrun]; rfl⟩
      exact ⟨result, heap', hrun, ih heap' (hcalls result heap' hrun)⟩

section Examples

/-- Three blocks with the given owners. -/
def threeBlocks (cell owner flag : ℕ) : Memory :=
  ofWords [(0x7ffc, cell), (0x8000, 0x801e), (0x8002, owner),
    (0x801e, 0x7ffe), (0x8020, 0x803e + flag), (0x8022, 1),
    (0x8042, 0xffff)]

/- The bounds of the heap. -/

theorem bibo_start : 4 ≤ 0x8000 := by decide

theorem bibo_low : 2 ≤ 0x7ffc := by decide

theorem bibo_high : 0x7ffc + 2 ≤ 0x8000 := by decide

/-- Three allocated blocks. -/
def allUsed : BiboHeap 0x8000 0x7ffc where
  memory := threeBlocks 0 1 0
  blocks := [⟨0x7ffe, 0x801e, 1⟩, ⟨0x801e, 0x803e, 1⟩,
    ⟨0x803e, 0, 0xffff⟩]
  after := none
  chain := .cons rfl (by decide +kernel) (.cons rfl (by decide +kernel)
    (.cons rfl (by decide +kernel) .nil))
  links := by decide +kernel
  start := bibo_start
  low := bibo_low
  high := bibo_high

/-- A free block before two allocated ones. -/
def freeFirst : BiboHeap 0x8000 0x7ffc where
  memory := threeBlocks 0x7ffe 0 1
  blocks := [⟨0x7ffe, 0x801e, 0⟩, ⟨0x801e, 0x803e, 1⟩,
    ⟨0x803e, 0, 0xffff⟩]
  after := none
  chain := .cons rfl (by decide +kernel) (.cons rfl (by decide +kernel)
    (.cons rfl (by decide +kernel) .nil))
  links := by decide +kernel
  start := bibo_start
  low := bibo_low
  high := bibo_high

theorem soundCalls_freeFirst : SoundCalls [.free 0x8024] freeFirst := by
  apply soundCalls_of_careful freeFirst [.free 0x8024]
  intro _
  refine ⟨⟨[⟨0x7ffe, 0x801e, 0⟩], _, _, [], rfl, rfl, Or.inl ?_⟩, ?_⟩
  · exact ⟨[], _, rfl, rfl⟩
  · exact fun _ _ _ => trivial

/-- Freeing a block between allocated blocks leaves the word before the next
block as it was. -/
theorem free_between_used_breaks_heap :
    ¬SoundCalls [.free 0x8024] allUsed := by
  intro hsound
  obtain ⟨result, heap', hrun, -⟩ :=
    hsound ⟨⟨0x801e, 0x803e, 1⟩, by simp [allUsed], by decide, rfl⟩
  have hwords : (HeapCall.performBibo 0x7ffc allUsed.memory
      (.free 0x8024)).map (fun r => (r.2.readWord 0x8000,
        r.2.readWord 0x8002, r.2.readWord 0x8020, r.2.readWord 0x8022,
        r.2.readWord 0x803e)) = some (0x801e, 1, 0x803e, 0, 0) := by
    decide +kernel
  rw [hrun] at hwords
  simp only [Option.map_some, Option.some.injEq, Prod.mk.injEq] at hwords
  obtain ⟨hnext₁, howner₁, hnext₂, howner₂, hback⟩ := hwords
  have hchain := heap'.chain
  generalize heap'.blocks = blocks at hchain
  cases blocks with
  | nil => cases hchain.of_nil.2
  | cons b bs =>
      obtain ⟨haddr, hin, hchain⟩ := hchain.of_cons
      have hb := hin.eq
      rw [haddr, hnext₁, howner₁] at hb
      subst hb
      cases bs with
      | nil => cases hchain.of_nil.2
      | cons c cs =>
          obtain ⟨haddr, hin, hchain⟩ := hchain.of_cons
          have haddr : c.addr = 0x801e := haddr
          have hc := hin.eq
          rw [haddr, hnext₂, howner₂] at hc
          subst hc
          cases cs with
          | nil => cases hchain.of_nil.2
          | cons d ds =>
              obtain ⟨haddr, hin, -⟩ := hchain.of_cons
              have haddr : d.addr = 0x803e := haddr
              have hd := hin.back 0x801e rfl
              rw [haddr, hback] at hd
              cases hd

end Examples

end BiboHeap

end BrickEmu
