import BrickEmu.LxRelocation

/-!
# Where `load_program` writes to

The image, the relocations, the clearing of the bss and the copying of the
data write to the block of the program exactly if the sizes in the header,
added without wrapping around, the words to relocate and the sections do not
go beyond the block.  The allocator is asked for the sum of the sizes in 16
bits, and nothing else is checked.
-/

namespace BrickEmu

open Memory

/-- The bytes of the block with the given payload, as its header says. -/
def Firmware.room (text : ℕ) (mem : Memory) : Firmware → ℕ
  | brickos => 2 * mem.readWord (text - 2)
  | bibo =>
      let next := clearFlag (mem.readWord (text - 4))
      (if next = 0 then 65536 else next + 2) - text

/-- What the readers find fits into a block with the given room. -/
def ProgramFile.ReadFits (file : ProgramFile) (text room : ℕ) : Prop :=
  match file with
  | .unreadable => True
  | .lx header image relocs =>
      min header.loaded image.length ≤ room ∧
        ∀ reloc ∈ relocs, reloc.toNat + 2 ≤ room
  | .coff _ sections => ∀ sect ∈ sections, sect.2 = [] ∨
      text ≤ sect.1 ∧ sect.1 + sect.2.length ≤ text + room

/-- The program fits into the block, with its sizes added as integers. -/
def ProgramFile.FitsBlock (file : ProgramFile) (header : ProgramHeader)
    (text room : ℕ) : Prop :=
  (header.total ≤ room ∨ header.dataSize = 0 ∧ header.bssSize = 0) ∧
    file.ReadFits text room

namespace LoadMemory

variable {text room : ℕ}

theorem within_relocate (base : Word) (m : LoadMemory) (reloc : Word) :
    (m.relocate text base reloc).Within text (text + room) ↔
      m.Within text (text + room) ∧ reloc.toNat + 2 ≤ room := by
  rw [relocate, within_store, length_bytes16]
  refine and_congr_right fun _ => ?_
  constructor
  · rintro (hnil | hroom)
    · cases hnil
    · omega
  · intro hroom
    exact .inr (by omega)

theorem within_readProgram (file : ProgramFile) (m : LoadMemory) :
    (m.readProgram file text).Within text (text + room) ↔
      m.Within text (text + room) ∧ file.ReadFits text room := by
  cases file with
  | unreadable => exact (and_iff_left trivial).symm
  | lx header image relocs =>
      rw [readProgram, foldl_iff (within_relocate header.base), within_store,
        and_assoc, ProgramFile.ReadFits, ← List.length_eq_zero_iff,
        List.length_take]
      refine and_congr_right fun _ => and_congr_left fun _ => ?_
      omega
  | coff header sections =>
      exact foldl_iff (fun m sect => within_store _ _ sect.1 sect.2 m)
        sections m

/-- The bss and the copy of the data end where the program does. -/
theorem sizes_iff (header : ProgramHeader) :
    ((header.bssSize.toNat = 0 ∨ text ≤ text + header.loaded ∧
        text + header.loaded + header.bssSize.toNat ≤ text + room) ∧
      (header.dataSize.toNat = 0 ∨ text ≤ text + header.extent ∧
        text + header.extent + header.dataSize.toNat ≤ text + room)) ↔
      header.total ≤ room ∨ header.dataSize = 0 ∧ header.bssSize = 0 := by
  have hzero : ∀ size : Word, size = 0 ↔ size.toNat = 0 :=
    fun size => BitVec.toNat_inj.symm
  rw [hzero, hzero]
  unfold ProgramHeader.total ProgramHeader.extent ProgramHeader.loaded
  omega

theorem within_install_iff (prog : ℕ) (header : ProgramHeader)
    (file : ProgramFile) (m : LoadMemory) :
    (m.install prog text header file).Within text (text + room) ↔
      m.Within text (text + room) ∧ file.FitsBlock header text room := by
  have hmap : ∀ (f : Memory → Memory) (m : LoadMemory),
      (m.mapMemory f).Within text (text + room) ↔
        m.Within text (text + room) := fun _ _ => Iff.rfl
  rw [install]
  simp only [hmap, within_store, within_readProgram,
    ← List.length_eq_zero_iff, List.length_replicate, List.length_map,
    List.length_range]
  rw [and_assoc, and_assoc, and_congr_right_iff]
  intro _
  rw [sizes_iff, ProgramFile.FitsBlock, and_comm]

end LoadMemory

/-! ## Blocks of well-formed heaps -/

section Room

variable {mmStart cell text size : ℕ}

theorem BrickosHeap.live_iff {heap : BrickosHeap mmStart cell}
    (hlive : heap.Live text size) :
    Firmware.brickos.room text heap.memory < 65536 ∧
      ∀ n, heap.Live text n ↔
        n ≤ Firmware.brickos.room text heap.memory := by
  obtain ⟨htext, b, hb, hused, rfl, -⟩ := hlive
  have hlen := (heap.tiles.mem_in hb).len_eq
  have hroom : Firmware.brickos.room (b.addr + 4) heap.memory =
      2 * b.len := by
    rw [← hlen]
    rfl
  rw [hroom]
  constructor
  · have hstart := heap.tiles.le_addr hb
    have hstop := heap.tiles.stop_le hb
    have hwraps := heap.wraps
    simp only [Block.stop] at hstop
    omega
  · intro n
    constructor
    · rintro ⟨-, c, hc, -, haddr, hle⟩
      have heq := (heap.tiles.mem_in hc).unique (heap.tiles.mem_in hb)
        (by omega)
      rwa [heq] at hle
    · intro hle
      exact ⟨htext, b, hb, hused, rfl, hle⟩

theorem BiboHeap.live_iff {heap : BiboHeap mmStart cell}
    (hlive : heap.Live text size) :
    Firmware.bibo.room text heap.memory < 65536 ∧
      ∀ n, heap.Live text n ↔ n ≤ Firmware.bibo.room text heap.memory := by
  obtain ⟨b, hb, hused, rfl, hsize⟩ := hlive
  obtain ⟨before, hin⟩ := heap.chain.mem_in hb
  have hnext : clearFlag (heap.memory.readWord (b.addr + 2)) = b.next :=
    (congrArg BiboBlock.next hin.eq).symm
  have hroom : Firmware.bibo.room (b.addr + 6) heap.memory =
      (if b.next = 0 then 65536 else b.next + 2) - (b.addr + 6) := by
    rw [← hnext]
    rfl
  rw [hroom]
  constructor
  · have hlt := Stretch.next_lt hin
    have heven := hin.nextEven
    split_ifs <;> omega
  · intro n
    constructor
    · rintro ⟨c, hc, -, haddr, hle⟩
      obtain ⟨before', hin'⟩ := heap.chain.mem_in hc
      have hsame : c.addr = b.addr := by omega
      have heq : c = b := by rw [hin'.eq, hin.eq, hsame]
      rw [heq] at hle
      omega
    · intro hle
      exact ⟨b, hb, hused, rfl, by omega⟩

/-- A block that is allocated for the program in 16 bits has room for it
exactly if its sizes do not wrap around. -/
theorem Firmware.total_le_room_iff (firmware : Firmware)
    {heap : (firmware.model mmStart cell).Heap} {header : ProgramHeader}
    (hlive : (firmware.model mmStart cell).Live heap text
      (header.total % 65536)) :
    header.total ≤
        firmware.room text ((firmware.model mmStart cell).memory heap) ↔
      header.total < 65536 := by
  obtain ⟨hlt, hroom⟩ : firmware.room text
      ((firmware.model mmStart cell).memory heap) < 65536 ∧
      ∀ n, (firmware.model mmStart cell).Live heap text n ↔
        n ≤ firmware.room text
          ((firmware.model mmStart cell).memory heap) := by
    cases firmware with
    | brickos => exact BrickosHeap.live_iff hlive
    | bibo => exact BiboHeap.live_iff hlive
  constructor
  · omega
  · intro htotal
    rw [← hroom]
    rwa [Nat.mod_eq_of_lt htotal] at hlive

/-- In a well-formed heap whose allocator does what it is asked for, a
program fits exactly if its sizes do not wrap around and what the readers
find does not go beyond the block. -/
theorem Placed.fitsBlock_iff {firmware : Firmware} {programs : ℕ}
    {slot : Fin 8} {file : ProgramFile} {mem taken : Memory}
    {header : ProgramHeader}
    (h : Placed (firmware.allocator mmStart cell) programs slot file mem
      header text taken)
    {freed : (firmware.model mmStart cell).Heap}
    (hfreed : freeSlot (firmware.allocator mmStart cell) programs slot mem =
      some ((firmware.model mmStart cell).memory freed))
    (hok : (firmware.model mmStart cell).MallocOk freed
      (header.total % 65536)) :
    file.FitsBlock header text (firmware.room text taken) ↔
      header.total < 65536 ∧
        file.ReadFits text (firmware.room text taken) := by
  obtain ⟨freed', hfreed', hmalloc⟩ := h.granted
  obtain rfl : freed' = (firmware.model mmStart cell).memory freed :=
    Option.some.inj (hfreed'.symm.trans hfreed)
  obtain ⟨addr, heap, hrun, -, -, hlive⟩ :=
    (firmware.model mmStart cell).malloc hok
  obtain ⟨rfl, rfl⟩ : addr = text ∧
      (firmware.model mmStart cell).memory heap = taken := by
    have heq := Option.some.inj (hrun.symm.trans hmalloc)
    exact ⟨congrArg Prod.fst heq, congrArg Prod.snd heq⟩
  rw [ProgramFile.FitsBlock,
    firmware.total_le_room_iff (hlive h.text_ne).1]
  refine and_congr_left fun _ => or_iff_left_of_imp ?_
  rintro ⟨hdata, hbss⟩
  have htext := header.textSize.isLt
  rw [ProgramHeader.total, hdata, hbss]
  exact htext

end Room

/-- The stores of the image, the relocations, the bss and the copy of the
data are inside the block of the program exactly if it fits. -/
theorem loadProgram_within_iff (firmware : Firmware)
    {mmStart cell programs : ℕ} {slot : Fin 8} {v : LoadVariables}
    {bytes : List Byte} {mem taken : Memory} {header : ProgramHeader}
    {text : ℕ}
    (h : Placed (firmware.allocator mmStart cell) programs slot
      (programFile v bytes) mem header text taken) :
    let m : LoadMemory := LoadMemory.install (slotAddr programs slot) text
      header (programFile v bytes) ⟨taken, []⟩
    loadProgram (firmware.allocator mmStart cell) programs slot
        (programFile v bytes) mem = some m.memory ∧
      (m.Within text (text + firmware.room text taken) ↔
        (programFile v bytes).FitsBlock header text
          (firmware.room text taken)) := by
  intro m
  constructor
  · rw [h.loadProgram_eq, LoadMemory.memory_install]
  · rw [LoadMemory.within_install_iff]
    exact and_iff_right fun addr haddr => absurd haddr List.not_mem_nil

namespace LxFile

/-- A program with a relocation behind its block. -/
def strayFile : LxFile where
  header := ⟨0, 0, 9, 0, 0, 0, 0, 1⟩
  image := List.replicate 9 0
  relocs := [0x100]
  rest := []
  version := rfl
  length_image := rfl
  length_relocs := rfl

/-- A program whose sizes add up to 65536 and 9. -/
def wrappedFile : LxFile where
  header := ⟨0, 0, 9, 0x8000, 0, 0, 0, 0⟩
  image := List.replicate 0x8009 0
  relocs := []
  rest := []
  version := rfl
  length_image := List.length_replicate
  length_relocs := rfl

theorem loadProgram_within_sampleFile :
    ∃ taken,
      Placed (brickosAllocator 0x8000 0x7ffe) 0x7000 0
        (programFile zeroVariables sampleFile.bytes) oneProgram.memory
        sampleFile.header.program 0x8004 taken ∧
      (LoadMemory.install (slotAddr 0x7000 0) 0x8004
        sampleFile.header.program (programFile zeroVariables sampleFile.bytes)
        ⟨taken, []⟩).Within 0x8004
          (0x8004 + Firmware.brickos.room 0x8004 taken) := by
  obtain ⟨taken, hlen, hplaced⟩ :=
    placed_oneProgram sampleFile zeroVariables rfl
  have hroom : Firmware.brickos.room 0x8004 taken = 10 :=
    congrArg (2 * ·) hlen
  refine ⟨taken, hplaced, (loadProgram_within_iff .brickos hplaced).2.mpr ?_⟩
  rw [sampleFile.programFile_eq, hroom]
  refine ⟨.inl (by decide), by decide, ?_⟩
  simp [sampleFile]

/-- The block has ten bytes in both cases. -/
theorem loadProgram_leaves_block :
    (∃ taken, Placed (brickosAllocator 0x8000 0x7ffe) 0x7000 0
        (programFile zeroVariables strayFile.bytes) oneProgram.memory
        strayFile.header.program 0x8004 taken ∧
      ¬(LoadMemory.install (slotAddr 0x7000 0) 0x8004
        strayFile.header.program (programFile zeroVariables strayFile.bytes)
        ⟨taken, []⟩).Within 0x8004
          (0x8004 + Firmware.brickos.room 0x8004 taken)) ∧
    ∃ taken, Placed (brickosAllocator 0x8000 0x7ffe) 0x7000 0
        (programFile zeroVariables wrappedFile.bytes) oneProgram.memory
        wrappedFile.header.program 0x8004 taken ∧
      ¬(LoadMemory.install (slotAddr 0x7000 0) 0x8004
        wrappedFile.header.program
        (programFile zeroVariables wrappedFile.bytes) ⟨taken, []⟩).Within
          0x8004 (0x8004 + Firmware.brickos.room 0x8004 taken) := by
  constructor
  · obtain ⟨taken, hlen, hplaced⟩ :=
      placed_oneProgram strayFile zeroVariables rfl
    have hroom : Firmware.brickos.room 0x8004 taken = 10 :=
      congrArg (2 * ·) hlen
    refine ⟨taken, hplaced, ?_⟩
    rw [LoadMemory.within_install_iff, strayFile.programFile_eq, hroom]
    rintro ⟨-, -, -, hrelocs⟩
    have hword := hrelocs 0x100 List.mem_cons_self
    revert hword
    decide
  · obtain ⟨taken, hlen, hplaced⟩ :=
      placed_oneProgram wrappedFile zeroVariables rfl
    have hroom : Firmware.brickos.room 0x8004 taken = 10 :=
      congrArg (2 * ·) hlen
    have htotal : wrappedFile.header.program.total = 65545 := rfl
    refine ⟨taken, hplaced, ?_⟩
    rw [LoadMemory.within_install_iff, hroom]
    rintro ⟨-, hsizes | ⟨hdata, -⟩, -⟩
    · omega
    · revert hdata
      decide

end LxFile

end BrickEmu
