import BrickEmu.SlotSafety

/-!
# The slots of brickOS and BiBo

The heaps of the two systems are heap models.  In brickOS every call but a
call that frees the last block is fine.  In BiBo only careful calls are.
-/

namespace BrickEmu

open Memory

section Brickos

namespace BrickosHeap

variable {mmStart cell : ℕ} (heap : BrickosHeap mmStart cell)

/-- The block behind a payload address is allocated and has the room. -/
def Live (addr size : ℕ) : Prop :=
  addr < 65536 ∧
    ∃ b ∈ heap.blocks, b.type ≠ 0 ∧ b.addr + 4 = addr ∧ size ≤ 2 * b.len

/-- The memory of the heap and the cell. -/
def region (mmStart cell : ℕ) : Set ℕ :=
  {x | mmStart ≤ x ∨ x = cell ∨ x = cell + 1}

variable {heap}

theorem live_region {addr size : ℕ} (hlive : heap.Live addr size) (x : ℕ)
    (hx : addr ≤ x) : x ∈ region mmStart cell := by
  obtain ⟨-, b, hb, -, rfl, -⟩ := hlive
  have hstart := heap.tiles.le_addr hb
  exact Or.inl (by omega)

/-- Free blocks lie in the region. -/
theorem not_inFree (heap : BrickosHeap mmStart cell) {x : ℕ}
    (hx : x ∉ region mmStart cell) :
    x ≠ cell ∧ x ≠ cell + 1 ∧ ¬InFree heap.blocks x := by
  refine ⟨fun h => hx (Or.inr (Or.inl h)),
    fun h => hx (Or.inr (Or.inr h)), ?_⟩
  rintro ⟨b, hb, -, hle, -⟩
  have hstart := heap.tiles.le_addr hb
  exact hx (Or.inl (by omega))

/-- Freeing a block changes the region only. -/
theorem frame_of_freed (heap : BrickosHeap mmStart cell) {b : Block}
    (hb : b ∈ heap.blocks.dropLast) {mem : Memory}
    (hspares : Spares cell (b.freed :: heap.blocks) heap.memory mem) {x : ℕ}
    (hx : x ∉ region mmStart cell) : mem x = heap.memory x := by
  obtain ⟨hcell, hcell', hout⟩ := heap.not_inFree hx
  apply hspares x hcell hcell'
  rintro ⟨c, hc, hfree, hle, hlt⟩
  rcases List.mem_cons.mp hc with rfl | hc
  · have hstart := heap.tiles.le_addr (List.dropLast_subset _ hb)
    rw [Block.freed_addr] at hle
    exact hx (Or.inl (by omega))
  · exact hout ⟨c, hc, hfree, hle, hlt⟩

theorem live_free {addr : ℕ} (hfree : heap.FreesBeforeLast (.free addr)) :
    ∃ heap' : BrickosHeap mmStart cell,
      brickosFree mmStart cell addr heap.memory = some heap'.memory ∧
      (∀ x ∉ region mmStart cell, heap'.memory x = heap.memory x) ∧
      ∀ other size, heap.Live other size → other ≠ addr →
        heap'.Live other size := by
  obtain ⟨b, hb, -, rfl⟩ := hfree
  obtain ⟨bs', mem', htiles, hrun, hrelease, hspares⟩ := heap.free_refines hb
  refine ⟨heap.after htiles, hrun,
    fun x hx => heap.frame_of_freed hb hspares hx, ?_⟩
  rintro other size ⟨hlt, c, hc, hused, haddr, hsize⟩ hne
  have hkept := mem_release (v := heap.memory.readWord cell) hc hused
    (haddr.trans_ne hne)
  rw [hrelease] at hkept
  exact ⟨hlt, c, hkept, hused, haddr, hsize⟩

theorem live_malloc (heap : BrickosHeap mmStart cell) (size : ℕ) :
    ∃ addr, ∃ heap' : BrickosHeap mmStart cell,
      brickosMalloc mmStart cell size heap.memory =
        some (addr, heap'.memory) ∧
      (∀ x ∉ region mmStart cell, heap'.memory x = heap.memory x) ∧
      (∀ other size, heap.Live other size → heap'.Live other size) ∧
      (addr ≠ 0 → heap'.Live addr size ∧ ∀ size, ¬heap.Live addr size) := by
  obtain ⟨r, bs', mem', htiles, hrun, hallocates, hspares⟩ :=
    heap.malloc_refines size
  refine ⟨resultOf r, heap.after htiles, hrun, ?_, ?_, ?_⟩
  · intro x hx
    obtain ⟨hcell, hcell', hout⟩ := heap.not_inFree hx
    exact hspares x hcell hcell' hout
  · rintro other size' ⟨hlt, c, hc, hused, haddr, hsize⟩
    exact ⟨hlt, c, hallocates.mem_of_used hc hused, hused, haddr, hsize⟩
  · intro hne
    cases r with
    | none => exact absurd rfl hne
    | some b =>
        obtain ⟨hmem, htype, hlen, c, hc, haddr, hfree⟩ := hallocates.granted
        have hstop := heap.tiles.free_stop hc hfree
        simp only [Block.stop] at hstop
        have hresult : resultOf (some b) = b.addr + 4 := rfl
        rw [hresult]
        refine ⟨⟨by omega, b, hmem, by rw [htype]; decide, rfl, by omega⟩, ?_⟩
        rintro size' ⟨-, d, hd, hused, hplace, -⟩
        have heq := (heap.tiles.mem_in hd).unique (heap.tiles.mem_in hc)
          (by omega)
        rw [heq] at hused
        exact hused hfree

/-- The heap does not depend on what is in the payload of a block. -/
theorem live_write {addr size : ℕ} {mem : Memory}
    (hlive : heap.Live addr size)
    (hsame : ∀ x ∈ region mmStart cell, ¬(addr ≤ x ∧ x < addr + size) →
      mem x = heap.memory x) :
    ∃ heap' : BrickosHeap mmStart cell, heap'.memory = mem ∧
      ∀ other size, heap.Live other size → heap'.Live other size := by
  obtain ⟨-, b, hb, -, rfl, hsize⟩ := hlive
  have htiles : Tiles mem heap.stop mmStart heap.blocks := by
    apply heap.tiles.transport
    intro c hc x hx hlt
    have hstart := heap.tiles.le_addr hc
    apply hsame x (Or.inl (by omega))
    by_cases hne : c = b
    · subst hne
      omega
    · have hapart := heap.tiles.apart hc hb hne
      simp only [Block.stop] at hapart
      omega
  exact ⟨heap.after htiles, rfl, fun _ _ h => h⟩

theorem live_writeOutside {mem : Memory}
    (hsame : ∀ x ∈ region mmStart cell, mem x = heap.memory x) :
    ∃ heap' : BrickosHeap mmStart cell, heap'.memory = mem ∧
      ∀ other size, heap.Live other size → heap'.Live other size := by
  have htiles : Tiles mem heap.stop mmStart heap.blocks := by
    apply heap.tiles.transport
    intro c hc x hx _
    have hstart := heap.tiles.le_addr hc
    exact hsame x (Or.inl (by omega))
  exact ⟨heap.after htiles, rfl, fun _ _ h => h⟩

end BrickosHeap

def brickosModel (mmStart cell : ℕ) :
    HeapModel (brickosAllocator mmStart cell) where
  Heap := BrickosHeap mmStart cell
  memory := BrickosHeap.memory
  region := BrickosHeap.region mmStart cell
  Live := BrickosHeap.Live
  FreeOk heap addr := heap.FreesBeforeLast (.free addr)
  MallocOk _ _ := True
  live_lt hlive := hlive.1
  live_region hlive x hx _ := BrickosHeap.live_region hlive x hx
  free _ hfree := BrickosHeap.live_free hfree
  malloc _ := BrickosHeap.live_malloc _ _
  write hlive hsame := BrickosHeap.live_write hlive hsame
  writeOutside hsame := BrickosHeap.live_writeOutside hsame

end Brickos

section Bibo

namespace BiboHeap

variable {mmStart cell : ℕ} (heap : BiboHeap mmStart cell)

/-- The block behind a payload address is allocated and has the room. -/
def Live (addr size : ℕ) : Prop :=
  ∃ b ∈ heap.blocks, b.owner ≠ 0 ∧ b.addr + 6 = addr ∧
    addr + size ≤ if b.next = 0 then 65536 else b.next + 2

/-- The memory of the heap, the cell and the word at 0. -/
def region (mmStart cell : ℕ) : Set ℕ :=
  {x | x < 2 ∨ mmStart ≤ x + 2 ∨ x = cell ∨ x = cell + 1}

/-- A careful call whose block has the room that is asked for. -/
def Roomy (size : ℕ) : Prop :=
  heap.Careful (.malloc size) ∧ size < 65535 ∧
    ∀ p, heap.firstFit size = some p → p.next = 0 →
      roundSize size + 6 ≤ p.extent

variable {heap}

theorem live_lt {addr size : ℕ} (hlive : heap.Live addr size) :
    addr < 65536 := by
  obtain ⟨b, hb, -, rfl, -⟩ := hlive
  have hin := heap.free_in hb
  omega

theorem live_region {addr size : ℕ} (hlive : heap.Live addr size) (x : ℕ)
    (hx : addr ≤ x) : x ∈ region mmStart cell := by
  obtain ⟨b, hb, -, rfl, -⟩ := hlive
  have hstart := heap.chain.le_addr hb
  exact Or.inr (Or.inl (by omega))

/-- What a call keeps, in terms of the region and the live blocks. -/
theorem Keeps.live {heap' : BiboHeap mmStart cell} {addr : ℕ}
    (hkeeps : heap.Keeps heap' addr) :
    (∀ x ∉ region mmStart cell, heap'.memory x = heap.memory x) ∧
      ∀ other size, heap.Live other size → other ≠ addr →
        heap'.Live other size := by
  constructor
  · intro x hx
    simp only [region, Set.mem_ofPred_eq, not_or] at hx
    obtain ⟨hlow, hhigh, hcell, hcell'⟩ := hx
    exact hkeeps.memory x (by omega) (by omega) hcell hcell'
  · rintro other size ⟨b, hb, hused, haddr, hsize⟩ hne
    exact ⟨b, hkeeps.blocks b hb hused (haddr.trans_ne hne), hused, haddr,
      hsize⟩

theorem live_free {addr : ℕ} (hfree : heap.Careful (.free addr)) :
    ∃ heap' : BiboHeap mmStart cell,
      biboFree cell addr heap.memory = some heap'.memory ∧
      (∀ x ∉ region mmStart cell, heap'.memory x = heap.memory x) ∧
      ∀ other size, heap.Live other size → other ≠ addr →
        heap'.Live other size := by
  obtain ⟨heap', hrun, hkeeps⟩ := heap.free_careful hfree
  exact ⟨heap', hrun, hkeeps.live⟩

theorem le_roundSize {size : ℕ} (hsize : size < 65535) :
    size ≤ roundSize size := by
  unfold roundSize clearFlag
  omega

theorem live_malloc {size : ℕ} (hroomy : heap.Roomy size) :
    ∃ addr, ∃ heap' : BiboHeap mmStart cell,
      biboMalloc cell size heap.memory = some (addr, heap'.memory) ∧
      (∀ x ∉ region mmStart cell, heap'.memory x = heap.memory x) ∧
      (∀ other size, heap.Live other size → heap'.Live other size) ∧
      (addr ≠ 0 → heap'.Live addr size ∧ ∀ size, ¬heap.Live addr size) := by
  obtain ⟨hcareful, hlt, hlast⟩ := hroomy
  obtain ⟨addr, heap', hrun, hkeeps, hgrants⟩ := heap.malloc_careful hcareful
  obtain ⟨hframe, hlive⟩ := hkeeps.live
  refine ⟨addr, heap', hrun, hframe, ?_, ?_⟩
  · intro other size' hother
    have hother' := hother
    obtain ⟨b, -, -, haddr, -⟩ := hother'
    exact hlive other size' hother (by omega)
  · intro hne
    obtain ⟨p, hfit, rfl, hnew⟩ := hgrants hne
    obtain ⟨hp, -⟩ : p.owner = 0 ∧ roundSize size + 4 ≤ p.extent := by
      simpa using List.find?_some hfit
    have hpmem : p ∈ heap.blocks := List.mem_of_find?_eq_some hfit
    have hle := le_roundSize hlt
    constructor
    · refine ⟨_, hnew, by simp, rfl, ?_⟩
      by_cases hzero : p.next = 0
      · have hextent : p.extent = 65536 - p.addr := if_pos hzero
        have hroom := hlast p hfit hzero
        have hin := heap.free_in hpmem
        simp only [if_pos hzero, if_true]
        omega
      · simp only [if_neg hzero]
        rw [if_neg (by omega)]
        omega
    · rintro size' ⟨b, hb, hused, haddr, -⟩
      by_cases heq : b = p
      · rw [heq] at hused
        exact hused hp
      · rcases heap.chain.apart hb hpmem heq with hbp | hpb
        · have hnext := hbp.next_le
          have hsize := hbp.size
          omega
        · have hnext := hpb.next_le
          have hsize := hpb.size
          omega

/-- A heap with the same blocks. -/
theorem live_changed {mem : Memory} (after : Option ℕ)
    (hchain : Stretch mem none (mmStart - 2) heap.blocks after 0)
    (hlinks : Linked mem cell (freeAddrs heap.blocks)) :
    ∃ heap' : BiboHeap mmStart cell, heap'.memory = mem ∧
      ∀ other size, heap.Live other size → heap'.Live other size :=
  ⟨heap.changed hchain hlinks, rfl, fun _ _ h => h⟩

/-- The heap does not depend on what is in the payload of a block. -/
theorem live_write {addr size : ℕ} {mem : Memory}
    (hlive : heap.Live addr size)
    (hsame : ∀ x ∈ region mmStart cell, ¬(addr ≤ x ∧ x < addr + size) →
      mem x = heap.memory x) :
    ∃ heap' : BiboHeap mmStart cell, heap'.memory = mem ∧
      ∀ other size, heap.Live other size → heap'.Live other size := by
  obtain ⟨b, hb, hused, rfl, hsize⟩ := hlive
  obtain ⟨pre, post, hblocks⟩ := List.append_of_mem hb
  have hhigh := heap.high
  have hstart := heap.chain.le_addr hb
  have hchain := heap.chain
  rw [hblocks] at hchain
  obtain ⟨hbefore, hbehind⟩ := hchain.around
  obtain ⟨u, hleft, hin, hright⟩ := hchain.at_block
  -- below the payload and behind it the heap is as before
  have hbelow : ∀ x, mmStart ≤ x + 2 → x < b.addr + 6 →
      mem x = heap.memory x := by
    intro x hx hlt
    exact hsame x (Or.inr (Or.inl hx)) (by omega)
  have habove : ∀ c ∈ post, ∀ x, b.next + 2 ≤ x →
      mem x = heap.memory x := by
    intro c hc x hx
    have hbc := (hbehind c hc).size
    rw [if_neg (by omega)] at hsize
    exact hsame x (Or.inr (Or.inl (by omega))) (by omega)
  apply live_changed heap.after
  · rw [hblocks]
    apply Stretch.append (u := u)
    · apply hleft.transport (mmStart - 2) (by omega) (Or.inl rfl)
      intro c hc x hx _ hlt
      have hcb := hbefore c hc
      have hnext := hcb.next_le
      have hcsize := hcb.size
      exact hbelow x (by omega) (by omega)
    · apply Stretch.cons rfl
      · apply hin.transport
        · exact fun x hx hlt => hbelow x (by omega) hlt
        · exact fun _ _ x hx hlt => hbelow x (by omega) (by omega)
      · apply hright.transport (b.next + 2) le_rfl
        · exact Or.inl (Stretch.tag_used hused)
        · exact fun c hc x hx _ _ => habove c hc x hx
  · apply heap.links.transport
    · apply readWord_congr
      · exact hsame _ (Or.inr (Or.inr (Or.inl rfl))) (by omega)
      · exact hsame _ (Or.inr (Or.inr (Or.inr rfl))) (by omega)
    · intro f hf
      obtain ⟨c, hc, hfree, rfl⟩ := mem_freeAddrs.mp hf
      rw [hblocks, List.mem_append, List.mem_cons] at hc
      rcases hc with hc | rfl | hc
      · have hcb := hbefore c hc
        have hcstart := hleft.le_addr hc
        have hnext := hcb.next_le
        have hcsize := hcb.freeSize hfree
        apply readWord_congr <;> apply hbelow <;> omega
      · exact absurd hfree hused
      · have hbc := hbehind c hc
        have hnext := hbc.next_le
        apply readWord_congr <;> apply habove c hc <;> omega

theorem live_writeOutside {mem : Memory}
    (hsame : ∀ x ∈ region mmStart cell, mem x = heap.memory x) :
    ∃ heap' : BiboHeap mmStart cell, heap'.memory = mem ∧
      ∀ other size, heap.Live other size → heap'.Live other size := by
  have habove : ∀ x, mmStart ≤ x + 2 → mem x = heap.memory x :=
    fun x hx => hsame x (Or.inr (Or.inl hx))
  apply live_changed heap.after
  · apply heap.chain.transport (mmStart - 2) (by omega) (Or.inl rfl)
    intro c _ x hx _ _
    exact habove x (by omega)
  · apply heap.links.transport
    · apply readWord_congr
      · exact hsame _ (Or.inr (Or.inr (Or.inl rfl)))
      · exact hsame _ (Or.inr (Or.inr (Or.inr rfl)))
    · intro f hf
      obtain ⟨c, hc, -, rfl⟩ := mem_freeAddrs.mp hf
      have hstart := heap.chain.le_addr hc
      apply readWord_congr <;> apply habove <;> omega

end BiboHeap

def biboModel (mmStart cell : ℕ) : HeapModel (biboAllocator cell) where
  Heap := BiboHeap mmStart cell
  memory := BiboHeap.memory
  region := BiboHeap.region mmStart cell
  Live := BiboHeap.Live
  FreeOk heap addr := heap.Careful (.free addr)
  MallocOk := BiboHeap.Roomy
  live_lt := BiboHeap.live_lt
  live_region hlive x hx _ := BiboHeap.live_region hlive x hx
  free _ hfree := BiboHeap.live_free hfree
  malloc hroomy := BiboHeap.live_malloc hroomy
  write hlive hsame := BiboHeap.live_write hlive hsame
  writeOutside hsame := BiboHeap.live_writeOutside hsame

end Bibo

/-- The systems whose slots the emulator fills. -/
inductive Firmware where
  | brickos
  | bibo

namespace Firmware

def allocator (mmStart cell : ℕ) : Firmware → Allocator
  | brickos => brickosAllocator mmStart cell
  | bibo => biboAllocator cell

def model (mmStart cell : ℕ) :
    (firmware : Firmware) → HeapModel (firmware.allocator mmStart cell)
  | brickos => brickosModel mmStart cell
  | bibo => biboModel mmStart cell

end Firmware

/-- In a sequence of permitted commands no slot dangles, in either system. -/
theorem programSlots_kept (firmware : Firmware) {mmStart cell programs : ℕ}
    (heap : (firmware.model mmStart cell).Heap)
    (htable : TableApart (firmware.model mmStart cell) programs)
    (hsound : SlotsSound (firmware.model mmStart cell) programs heap)
    (commands : List SlotCommand)
    (hpermitted :
      Permitted (firmware.model mmStart cell) programs commands heap) :
    SlotsKept (firmware.model mmStart cell) programs commands heap :=
  slotsKept htable hsound commands hpermitted

section Examples

/-- A program in slot 0 and the end marker behind its block. -/
def oneProgram : BrickosHeap 0x8000 0x7ffe where
  memory := ofWords [(0x7000, 0x8004), (0x7008, 4), (0x8000, 0xfffe),
    (0x8002, 0x10), (0x8024, 0xffff), (0x8026, 0x3fec)]
  blocks := [⟨0x8000, 0xfffe, 0x10⟩, ⟨0x8024, 0xffff, 0x3fec⟩]
  stop := 0x10000
  tiles := .cons rfl (by decide +kernel)
    (.last rfl (by decide +kernel) (by decide) (by decide) rfl)
  wraps := BrickosHeap.brickos_wraps
  above := BrickosHeap.brickos_above
  below := BrickosHeap.brickos_below

/-- A program of the given size without data and relocations. -/
def plainFile (textSize : Word) : ProgramFile :=
  .lx ⟨0, textSize, 0, 0, 0, 0⟩ [] []

theorem tableApart_oneProgram :
    TableApart (Firmware.brickos.model 0x8000 0x7ffe) 0x7000 := by
  rintro x - hlt (hx | hx | hx) <;> omega

theorem slotsSound_oneProgram :
    SlotsSound (Firmware.brickos.model 0x8000 0x7ffe) 0x7000
      oneProgram := by
  have hempty : ∀ slot, occupied 0x7000 slot oneProgram.memory →
      slot = 0 := by
    decide +kernel
  have htext : slotText 0x7000 0 oneProgram.memory = 0x8004 := by
    decide +kernel
  constructor
  · intro slot _ hocc
    obtain rfl := hempty slot hocc
    exact ⟨0, readWord_lt _ _, ⟨0x8000, 0xfffe, 0x10⟩, List.mem_cons_self,
      by decide, htext.symm, by decide⟩
  · intro slot other _ _ hocc hocc' _
    rw [hempty slot hocc, hempty other hocc']

/-- A smaller program takes the place of the old one. -/
theorem programSlots_kept_smaller :
    SlotsKept (Firmware.brickos.model 0x8000 0x7ffe) 0x7000
      [.load 0 (plainFile 4)] oneProgram := by
  apply programSlots_kept .brickos oneProgram tableApart_oneProgram
    slotsSound_oneProgram
  refine ⟨?_, fun _ _ => trivial⟩
  rintro header ⟨rfl⟩
  refine ⟨fun _ => ?_, ?_⟩
  · refine ⟨⟨0x8000, 0xfffe, 0x10⟩, List.mem_cons_self, by decide, ?_⟩
    decide +kernel
  intro freed hfreed
  refine ⟨trivial, ?_⟩
  intro text taken htaken
  have hplace : ((freeSlot (brickosAllocator 0x8000 0x7ffe) 0x7000 0
      oneProgram.memory).bind fun mem =>
        (brickosMalloc 0x8000 0x7ffe 4 mem).map Prod.fst) =
          some 0x8004 := by
    decide +kernel
  have hfreed : freeSlot (brickosAllocator 0x8000 0x7ffe) 0x7000 0
      oneProgram.memory = some freed.memory := hfreed
  have htaken : brickosMalloc 0x8000 0x7ffe 4 freed.memory =
      some (text, taken.memory) := htaken
  rw [hfreed, Option.bind_some, htaken] at hplace
  obtain rfl : text = 0x8004 := Option.some.inj hplace
  rw [if_neg (by decide), if_neg (by decide)]
  exact ⟨by decide, fun _ hreloc => absurd hreloc List.not_mem_nil⟩

/-- A load that does not fit leaves the slot on a block that is free. -/
theorem programSlots_dangle :
    TableApart (Firmware.brickos.model 0x8000 0x7ffe) 0x7000 ∧
      SlotsSound (Firmware.brickos.model 0x8000 0x7ffe) 0x7000 oneProgram ∧
        ¬SlotsKept (Firmware.brickos.model 0x8000 0x7ffe) 0x7000
          [.load 0 (plainFile 0x100)] oneProgram := by
  refine ⟨tableApart_oneProgram, slotsSound_oneProgram, ?_⟩
  rintro ⟨heap', hrun, hsound, -⟩
  have hrun : (SlotCommand.load 0 (plainFile 0x100)).run
      (brickosAllocator 0x8000 0x7ffe) 0x7000 oneProgram.memory =
        some heap'.memory := hrun
  have hwords : ((SlotCommand.load 0 (plainFile 0x100)).run
      (brickosAllocator 0x8000 0x7ffe) 0x7000 oneProgram.memory).map
        (fun mem => (mem.readWord 0x7000, mem.readWord 0x7008,
          mem.readWord 0x8000)) = some (0x8004, 4, 0) := by
    decide +kernel
  rw [hrun] at hwords
  simp only [Option.map_some, Option.some.injEq, Prod.mk.injEq] at hwords
  obtain ⟨htext, hsize, htype⟩ := hwords
  have hocc : occupied 0x7000 0 heap'.memory := by
    rw [occupied, show slotAddr 0x7000 0 + 8 = 0x7008 from rfl, hsize]
    decide
  obtain ⟨size, -, b, hb, hused, haddr, -⟩ := hsound.live 0 trivial hocc
  have haddr : b.addr + 4 = 0x8004 := haddr.trans htext
  have hin := (heap'.tiles.mem_in hb).type_eq
  rw [show b.addr = 0x8000 by omega, htype] at hin
  exact hused hin.symm

end Examples

end BrickEmu
