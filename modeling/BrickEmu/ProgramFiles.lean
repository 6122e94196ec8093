import BrickEmu.FileLoaders
import BrickEmu.SlotSafety

/-!
# The files of `load_program`

A file is a COFF file if `coff_init` says so and an lx file if `lx_init`
does.  What the readers find in the bytes of a file is what goes into a slot.
The stores of the readers, of the clearing of the bss and of the copying of
the data are recorded; those to the slot are not.
-/

namespace BrickEmu

open Memory

/-- The variables of the commands and of the readers that are read into. -/
structure LoadVariables where
  coffInit : Buffer
  aouthdr : Buffer
  signature : Buffer
  header : Buffer
  coffHeader : Buffer
  coffAouthdr : Buffer
  sect : Buffer
  reloc : Word

def LxHeader.program (header : LxHeader) : ProgramHeader where
  base := header.base
  textSize := header.textSize
  dataSize := header.dataSize
  bssSize := header.bssSize
  stackSize := header.stackSize
  offset := header.offset

def DEFAULT_STACK_SIZE : Word := 1024

/-- The fields are cut off to 16 bits. -/
def ProgramHeader.ofAouthdr (buf : Buffer) : ProgramHeader where
  base := (buf.read32 20).setWidth 16
  textSize := (buf.read32 4).setWidth 16
  dataSize := (buf.read32 8).setWidth 16
  bssSize := (buf.read32 12).setWidth 16
  stackSize := DEFAULT_STACK_SIZE
  offset := (buf.read32 16).setWidth 16 - (buf.read32 20).setWidth 16

namespace CFile

/-- The sections that `coff_read` loads. -/
def loadedSections (header sect : Buffer) (file : CFile) :
    List (ℕ × List Byte) :=
  let sections :=
    file.coffSections (file.coffHeader header).nscns.toNat 0 sect
  (sections.filter fun s => s.flags &&& STYP_LOAD ≠ 0).map fun s =>
    (s.paddr.toNat, file.sectionBytes s)

end CFile

/-- The file as the commands and the readers see it. -/
def programFile (v : LoadVariables) (bytes : List Byte) : ProgramFile :=
  let file : CFile := ⟨bytes, 0⟩
  if file.coffInit v.coffInit then
    let aouthdr := v.aouthdr.fill ((file.fseek 20).fread 28).1
    .coff (.ofAouthdr aouthdr) (file.loadedSections v.coffHeader v.sect)
  else
    match file.lxInit v.signature v.header with
    | none => .unreadable
    | some header =>
        let (image, file) := (file.fseek 24).fread
          (header.textSize.toNat + header.dataSize.toNat)
        .lx header.program image
          (file.lxRelocs header.numRelocs.toNat v.reloc)

/-! ## The stores -/

namespace LoadMemory

/-- Changes that are not recorded. -/
def mapMemory (f : Memory → Memory) (m : LoadMemory) : LoadMemory :=
  { m with memory := f m.memory }

def readProgram (file : ProgramFile) (text : ℕ) (m : LoadMemory) :
    LoadMemory :=
  match file with
  | .unreadable => m
  | .lx header image relocs =>
      relocs.foldl (relocate text header.base)
        (m.store text (image.take header.loaded))
  | .coff _ sections =>
      sections.foldl (fun m sect => m.store sect.1 sect.2) m

/-- `load_program` once the program has its place. -/
def install (prog text : ℕ) (header : ProgramHeader) (file : ProgramFile)
    (m : LoadMemory) : LoadMemory :=
  let m := m.mapMemory (writeSlot prog text header)
  let m := m.readProgram file text
  let m := m.store (text + header.loaded)
    (List.replicate header.bssSize.toNat 0)
  let m := m.store (text + header.extent)
    ((List.range header.dataSize.toNat).map fun i =>
      m.memory (text + header.textSize.toNat + i))
  m.mapMemory fun mem => mem.writeWord (prog + 20) header.loaded

end LoadMemory

theorem storeBytes_eq_writeBytes (bytes : List Byte) (mem : Memory)
    (addr : ℕ) : storeBytes mem bytes addr = mem.writeBytes addr bytes := by
  induction bytes generalizing mem addr with
  | nil =>
      funext x
      simp [storeBytes, writeBytes]
  | cons byte bytes ih =>
      funext x
      rw [storeBytes, ih, writeBytes, writeBytes]
      rcases lt_trichotomy x addr with hlt | rfl | hlt
      · rw [if_neg (by omega), if_neg (by omega),
          Function.update_of_ne (by omega)]
      · rw [if_neg (by omega), if_pos le_rfl, Function.update_self,
          Nat.sub_self, List.getD_cons_zero]
      · have hoffset : x - addr = x - (addr + 1) + 1 := by omega
        rw [if_pos (by omega), if_pos hlt.le, hoffset, List.getD_cons_succ,
          Function.update_of_ne (by omega)]

theorem storeBytes_bytes16 (mem : Memory) (addr : ℕ) (val : Word) :
    storeBytes mem (bytes16 val) addr = mem.writeWord addr val.toNat := by
  have hhigh : val.extractLsb' 8 8 = BitVec.ofNat 8 (val.toNat / 256) := by
    apply BitVec.eq_of_toNat_eq
    rw [BitVec.extractLsb'_toNat, BitVec.toNat_ofNat, Nat.shiftRight_eq_div_pow]
  have hlow : val.extractLsb' 0 8 = BitVec.ofNat 8 (val.toNat % 256) := by
    apply BitVec.eq_of_toNat_eq
    rw [BitVec.extractLsb'_toNat, BitVec.toNat_ofNat, Nat.shiftRight_zero]
    exact (Nat.mod_mod _ _).symm
  rw [bytes16, storeBytes, storeBytes, storeBytes, Memory.writeWord, hhigh,
    hlow]

namespace LoadMemory

@[simp] theorem memory_store (addr : ℕ) (bytes : List Byte) (m : LoadMemory) :
    (m.store addr bytes).memory = m.memory.writeBytes addr bytes :=
  storeBytes_eq_writeBytes bytes m.memory addr

@[simp] theorem memory_mapMemory (f : Memory → Memory) (m : LoadMemory) :
    (m.mapMemory f).memory = f m.memory :=
  rfl

theorem memory_relocate (start : ℕ) (base : Word) (m : LoadMemory)
    (reloc : Word) :
    (m.relocate start base reloc).memory =
      BrickEmu.relocate start base.toNat m.memory reloc := by
  have hword : (m.memory (start + reloc.toNat) ++
      m.memory (start + reloc.toNat + 1) : Word).toNat =
      m.memory.readWord (start + reloc.toNat) := by
    have hlow := (m.memory (start + reloc.toNat + 1)).isLt
    rw [BitVec.toNat_append, Memory.readWord, Nat.shiftLeft_eq, mul_comm,
      ← Nat.two_pow_add_eq_or_of_lt hlow, mul_comm]
  have hval : (m.memory (start + reloc.toNat) ++
      m.memory (start + reloc.toNat + 1) +
        (BitVec.ofNat 16 start - base) : Word).toNat =
      (m.memory.readWord (start + reloc.toNat) + start + 65536 -
        base.toNat) % 65536 := by
    have hbase := base.isLt
    rw [BitVec.toNat_add, hword, BitVec.toNat_sub, BitVec.toNat_ofNat]
    omega
  rw [BrickEmu.relocate, ← hval, ← storeBytes_bytes16]
  rfl

theorem memory_foldl {α : Type} {pass : LoadMemory → α → LoadMemory}
    {step : Memory → α → Memory}
    (hpass : ∀ m a, (pass m a).memory = step m.memory a) (list : List α)
    (m : LoadMemory) :
    (list.foldl pass m).memory = list.foldl step m.memory := by
  induction list generalizing m with
  | nil => rfl
  | cons a list ih => rw [List.foldl_cons, ih, hpass, List.foldl_cons]

@[simp] theorem memory_readProgram (file : ProgramFile) (text : ℕ)
    (m : LoadMemory) :
    (m.readProgram file text).memory =
      BrickEmu.readProgram file text m.memory := by
  cases file with
  | unreadable => rfl
  | lx header image relocs =>
      rw [readProgram, BrickEmu.readProgram, lxRead,
        memory_foldl (memory_relocate text header.base), memory_store]
  | coff header sections =>
      exact memory_foldl (fun m sect => memory_store sect.1 sect.2 m)
        sections m

/-- What is recorded does not change what is done. -/
theorem memory_install (prog text : ℕ) (header : ProgramHeader)
    (file : ProgramFile) (m : LoadMemory) :
    (m.install prog text header file).memory =
      BrickEmu.install prog text header file m.memory := by
  simp only [install, BrickEmu.install, memory_mapMemory, memory_store,
    memory_readProgram]

end LoadMemory

/-! ## The readers of files -/

theorem CFile.coffRead_eq {v : LoadVariables} {bytes : List Byte}
    (hcoff : CFile.coffInit v.coffInit ⟨bytes, 0⟩ = true) (text : ℕ)
    (m : LoadMemory) :
    (CFile.coffRead v.coffHeader v.coffAouthdr v.sect ⟨bytes, 0⟩ m).2 =
      m.readProgram (programFile v bytes) text := by
  rw [programFile]
  simp only [if_pos hcoff]
  rw [LoadMemory.readProgram, loadedSections, List.foldl_map,
    List.foldl_filter, coffRead]
  simp only [decide_eq_true_eq]
  rfl

theorem CFile.lxRead_eq {v : LoadVariables} {bytes : List Byte}
    {header : LxHeader}
    (hcoff : ¬CFile.coffInit v.coffInit ⟨bytes, 0⟩ = true)
    (hlx : CFile.lxInit v.signature v.header ⟨bytes, 0⟩ = some header)
    (text : ℕ) (m : LoadMemory) :
    CFile.lxRead header text v.reloc ⟨bytes, 0⟩ m =
      m.readProgram (programFile v bytes) text := by
  rw [programFile]
  simp only [if_neg hcoff, hlx]
  rw [LoadMemory.readProgram, lxRead]
  have htake : (((⟨bytes, 0⟩ : CFile).fseek 24).fread
      header.program.loaded).1.take header.program.loaded =
      (((⟨bytes, 0⟩ : CFile).fseek 24).fread header.program.loaded).1 := by
    rw [fread, List.take_take, min_self]
  change _ = List.foldl _ (m.store text ((((⟨bytes, 0⟩ : CFile).fseek 24).fread
    header.program.loaded).1.take header.program.loaded)) _
  rw [htake]
  rfl

/-! ## Loads that are carried out -/

/-- The slot is filled with a program that the allocator has placed at
`text`, leaving the memory `taken`. -/
structure Placed (alloc : Allocator) (programs : ℕ) (slot : Fin 8)
    (file : ProgramFile) (mem : Memory) (header : ProgramHeader) (text : ℕ)
    (taken : Memory) : Prop where
  header_eq : file.header? = some header
  granted : ∃ freed, freeSlot alloc programs slot mem = some freed ∧
    alloc.malloc (header.total % 65536) freed = some (text, taken)
  text_ne : text ≠ 0
  linked : file.isCoff → text = header.base.toNat

theorem Placed.loadProgram_eq {alloc : Allocator} {programs : ℕ}
    {slot : Fin 8} {file : ProgramFile} {mem : Memory}
    {header : ProgramHeader} {text : ℕ} {taken : Memory}
    (h : Placed alloc programs slot file mem header text taken) :
    loadProgram alloc programs slot file mem =
      some (install (slotAddr programs slot) text header file taken) := by
  obtain ⟨freed, hfree, hmalloc⟩ := h.granted
  have hlinked : ¬(file.isCoff ∧ text ≠ header.base.toNat) :=
    fun hwrong => hwrong.2 (h.linked hwrong.1)
  simp only [loadProgram, h.header_eq, hfree, hmalloc, if_neg h.text_ne,
    if_neg hlinked]

end BrickEmu
