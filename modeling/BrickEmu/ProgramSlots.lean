import BrickEmu.BiboCalls

/-!
# Loading programs into the slots of the firmware

The commands `load_program` and `newprogram_addr` of `brickos.c` and `bibo.c`
differ only in the allocator they call.  A file is what the readers of
`lx.c` and `coff.c` find in it: the header, and the bytes, relocations and
sections that their calls of `fread` deliver.  A slot has 22 bytes; the word
at offset 0 is the address of the text and the word at offset 8 its size,
which is 0 in an empty slot.  The symbols of a COFF file are left out.
-/

namespace BrickEmu

open Memory

structure Allocator where
  malloc : ℕ → Memory → Option (ℕ × Memory)
  free : ℕ → Memory → Option Memory

def brickosAllocator (mmStart cell : ℕ) : Allocator :=
  ⟨brickosMalloc mmStart cell, brickosFree mmStart cell⟩

def biboAllocator (cell : ℕ) : Allocator :=
  ⟨biboMalloc cell, biboFree cell⟩

structure ProgramHeader where
  base : Word
  textSize : Word
  dataSize : Word
  bssSize : Word
  stackSize : Word
  offset : Word

namespace ProgramHeader

variable (header : ProgramHeader)

/-- The bytes of the file that are loaded. -/
def loaded : ℕ :=
  header.textSize.toNat + header.dataSize.toNat

/-- The bytes of the program in memory without the copy of its data. -/
def extent : ℕ :=
  header.loaded + header.bssSize.toNat

/-- The bytes the program needs. -/
def total : ℕ :=
  header.textSize.toNat + 2 * header.dataSize.toNat + header.bssSize.toNat

end ProgramHeader

inductive ProgramFile where
  | unreadable
  | lx (header : ProgramHeader) (image : List Byte) (relocs : List Word)
  | coff (header : ProgramHeader) (sections : List (ℕ × List Byte))

namespace ProgramFile

def header? : ProgramFile → Option ProgramHeader
  | unreadable => none
  | lx header _ _ => some header
  | coff header _ => some header

def isCoff : ProgramFile → Bool
  | coff _ _ => true
  | _ => false

end ProgramFile

namespace Memory

def writeBytes (mem : Memory) (addr : ℕ) (bytes : List Byte) : Memory :=
  fun x => if addr ≤ x then bytes.getD (x - addr) (mem x) else mem x

end Memory

/-- One relocation of `lx_read`. -/
def relocate (start base : ℕ) (mem : Memory) (reloc : Word) : Memory :=
  let addr := start + reloc.toNat
  mem.writeWord addr ((mem.readWord addr + start + 65536 - base) % 65536)

def lxRead (header : ProgramHeader) (image : List Byte) (relocs : List Word)
    (start : ℕ) (mem : Memory) : Memory :=
  relocs.foldl (relocate start header.base.toNat)
    (mem.writeBytes start (image.take header.loaded))

def coffRead (sections : List (ℕ × List Byte)) (mem : Memory) : Memory :=
  sections.foldl (fun mem sect => mem.writeBytes sect.1 sect.2) mem

def readProgram (file : ProgramFile) (text : ℕ) (mem : Memory) : Memory :=
  match file with
  | .unreadable => mem
  | .lx header image relocs => lxRead header image relocs text mem
  | .coff _ sections => coffRead sections mem

/-- The entries of a slot behind the address of its text. -/
def writeEntries (prog text : ℕ) (header : ProgramHeader) (mem : Memory) :
    Memory :=
  let mem := mem.writeWord (prog + 2) (text + header.textSize.toNat)
  let mem := mem.writeWord (prog + 4) (text + header.loaded)
  let mem := mem.writeWord (prog + 6) (text + header.extent)
  let mem := mem.writeWord (prog + 8) header.textSize.toNat
  let mem := mem.writeWord (prog + 10) header.dataSize.toNat
  let mem := mem.writeWord (prog + 12) header.bssSize.toNat
  let mem := mem.writeWord (prog + 14) header.stackSize.toNat
  let mem := mem.writeWord (prog + 16) header.offset.toNat
  mem.writeBytes (prog + 18) [10]

/-- The entries of a slot up to the call of the reader. -/
def writeSlot (prog text : ℕ) (header : ProgramHeader) (mem : Memory) :
    Memory :=
  writeEntries prog text header (mem.writeWord prog text)

/-- The rest of `load_program` once the program has its place. -/
def install (prog text : ℕ) (header : ProgramHeader) (file : ProgramFile)
    (mem : Memory) : Memory :=
  let mem := readProgram file text (writeSlot prog text header mem)
  let mem := mem.writeBytes (text + header.loaded)
    (List.replicate header.bssSize.toNat 0)
  let mem := mem.writeBytes (text + header.extent)
    ((List.range header.dataSize.toNat).map fun i =>
      mem (text + header.textSize.toNat + i))
  mem.writeWord (prog + 20) header.loaded

section Commands

variable (alloc : Allocator) (programs : ℕ)

def slotAddr (slot : Fin 8) : ℕ :=
  programs + 22 * slot.val

def occupied (slot : Fin 8) (mem : Memory) : Prop :=
  0 < mem.readWord (slotAddr programs slot + 8)

instance (slot : Fin 8) (mem : Memory) :
    Decidable (occupied programs slot mem) :=
  inferInstanceAs (Decidable (_ < _))

/-- Frees the program that is in the slot. -/
def freeSlot (slot : Fin 8) (mem : Memory) : Option Memory :=
  if occupied programs slot mem then
    alloc.free (mem.readWord (slotAddr programs slot)) mem
  else some mem

def loadProgram (slot : Fin 8) (file : ProgramFile) (mem : Memory) :
    Option Memory :=
  match file.header? with
  | none => some mem
  | some header =>
      match freeSlot alloc programs slot mem with
      | none => none
      | some mem =>
          match alloc.malloc (header.total % 65536) mem with
          | none => none
          | some (text, mem) =>
              if text = 0 then some mem
              else if file.isCoff ∧ text ≠ header.base.toNat then
                alloc.free text mem
              else some (install (slotAddr programs slot) text header file mem)

/-- The result is the address that is reported to the GUI. -/
def newprogramAddr (slot : Fin 8) (size : Word) (mem : Memory) :
    Option (ℕ × Memory) :=
  match freeSlot alloc programs slot mem with
  | none => none
  | some freed =>
      let mem :=
        if occupied programs slot mem then
          freed.writeWord (slotAddr programs slot + 8) 0
        else freed
      match alloc.malloc size.toNat mem with
      | none => none
      | some (addr, mem) =>
          if addr ≠ 0 then (alloc.free addr mem).map (Prod.mk addr)
          else some (addr, mem)

end Commands

def brickosLoadProgram (mmStart cell programs : ℕ) :
    Fin 8 → ProgramFile → Memory → Option Memory :=
  loadProgram (brickosAllocator mmStart cell) programs

def brickosNewprogramAddr (mmStart cell programs : ℕ) :
    Fin 8 → Word → Memory → Option (ℕ × Memory) :=
  newprogramAddr (brickosAllocator mmStart cell) programs

def biboLoadProgram (cell programs : ℕ) :
    Fin 8 → ProgramFile → Memory → Option Memory :=
  loadProgram (biboAllocator cell) programs

def biboNewprogramAddr (cell programs : ℕ) :
    Fin 8 → Word → Memory → Option (ℕ × Memory) :=
  newprogramAddr (biboAllocator cell) programs

end BrickEmu
