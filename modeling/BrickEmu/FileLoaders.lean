import BrickEmu.HostFile

/-!
# The readers of program files

`lx_read` and `coff_read` copy parts of a file to `memory`; where to and how
much is said by the file.  A read that comes up short leaves the rest of its
variable as it was, so that the variables take the values they have at first
as parameters.  What the calls of `fread` deliver does not depend on
`memory`: the relocations and the headers of the sections are lists.
-/

namespace BrickEmu

/-- A word in a variable of the host, which has its low byte first, behind a
read into the variable and `ntohs`. -/
def freadWord (word : Word) (bytes : List Byte) : Word :=
  bytes.getD 0 (word.extractLsb' 0 8) ++ bytes.getD 1 (word.extractLsb' 8 8)

/-! ## lx files -/

structure LxHeader where
  version : Word
  base : Word
  textSize : Word
  dataSize : Word
  bssSize : Word
  stackSize : Word
  offset : Word
  numRelocs : Word

def LxHeader.ofBuffer (buf : Buffer) : LxHeader where
  version := buf.read16 0
  base := buf.read16 2
  textSize := buf.read16 4
  dataSize := buf.read16 6
  bssSize := buf.read16 8
  stackSize := buf.read16 10
  offset := buf.read16 12
  numRelocs := buf.read16 14

/-- `brickOS` -/
def lxSignature : List Byte :=
  [0x62, 0x72, 0x69, 0x63, 0x6b, 0x4f, 0x53, 0]

namespace CFile

/-- `lx_init`: the header, unless the file is rejected. -/
def lxInit (signature header : Buffer) (file : CFile) : Option LxHeader :=
  let (bytes, file) := (file.fseek 0).fread 8
  if (signature.fill bytes).slice 0 8 ≠ lxSignature then none
  else
    let (bytes, _) := file.fread 16
    let header := LxHeader.ofBuffer (header.fill bytes)
    if header.version ≠ 0 then none else some header

/-- The values of the variable `reloc` in the passes of the loop. -/
def lxRelocs : ℕ → Word → CFile → List Word
  | 0, _, _ => []
  | count + 1, reloc, file =>
      let (bytes, file) := file.fread 2
      let reloc := freadWord reloc bytes
      reloc :: lxRelocs count reloc file

end CFile

/-- A pass of the loop: a word is moved by the distance of the program. -/
def LoadMemory.relocate (start : ℕ) (base : Word) (m : LoadMemory)
    (reloc : Word) : LoadMemory :=
  let addr := start + reloc.toNat
  let val := m.memory addr ++ m.memory (addr + 1)
  let val := val + (BitVec.ofNat 16 start - base)
  m.store addr (bytes16 val)

/-- `lx_read`, which always returns 1. -/
def CFile.lxRead (header : LxHeader) (start : ℕ) (reloc : Word)
    (file : CFile) (m : LoadMemory) : LoadMemory :=
  let (image, file) := (file.fseek 24).fread
    (header.textSize.toNat + header.dataSize.toNat)
  (file.lxRelocs header.numRelocs.toNat reloc).foldl
    (LoadMemory.relocate start header.base) (m.store start image)

/-! ## COFF files -/

def F_EXEC : Word := 0x0002

def STYP_LOAD : BitVec 32 := 0x0060

/-- A variable of type `coff_header`. -/
structure CoffHeader where
  magic : Word
  nscns : Word
  symptr : BitVec 32
  nsyms : BitVec 32
  opthdr : Word
  flags : Word

def CoffHeader.ofBuffer (buf : Buffer) : CoffHeader where
  magic := buf.read16 0
  nscns := buf.read16 2
  symptr := buf.read32 8
  nsyms := buf.read32 12
  opthdr := buf.read16 16
  flags := buf.read16 18

/-- The fields of a variable of type `coff_section` that are used. -/
structure CoffSection where
  paddr : BitVec 32
  size : BitVec 32
  scnptr : BitVec 32
  flags : BitVec 32

def CoffSection.ofBuffer (buf : Buffer) : CoffSection where
  paddr := buf.read32 8
  size := buf.read32 16
  scnptr := buf.read32 20
  flags := buf.read32 36

namespace CFile

/-- The header at the start of the file. -/
def coffHeader (header : Buffer) (file : CFile) : CoffHeader :=
  .ofBuffer (header.fill ((file.fseek 0).fread 20).1)

/-- `coff_init` -/
def coffInit (header : Buffer) (file : CFile) : Bool :=
  let header := CoffHeader.ofBuffer (header.fill (file.fread 20).1)
  header.magic = 0x8300 ∧ header.flags &&& F_EXEC ≠ 0 ∧ header.opthdr = 28

/-- The variable `sect` in the passes of the loop, from pass `i` on. -/
def coffSections (file : CFile) : ℕ → ℕ → Buffer → List CoffSection
  | 0, _, _ => []
  | count + 1, i, sect =>
      let sect := sect.fill ((file.fseek (20 + 28 + i * 40)).fread 40).1
      .ofBuffer sect :: file.coffSections count (i + 1) sect

/-- The bytes of a section that are in the file. -/
def sectionBytes (file : CFile) (sect : CoffSection) : List Byte :=
  ((file.fseek sect.scnptr.toNat).fread sect.size.toNat).1

/-- A pass of the loop of `coff_read`. -/
def loadSection (file : CFile) (m : LoadMemory) (sect : CoffSection) :
    LoadMemory :=
  if sect.flags &&& STYP_LOAD ≠ 0 then
    m.store sect.paddr.toNat (file.sectionBytes sect)
  else m

/-- `coff_read`, with the entry address that it returns. -/
def coffRead (header aouthdr sect : Buffer) (file : CFile)
    (m : LoadMemory) : BitVec 32 × LoadMemory :=
  let numsect := (file.coffHeader header).nscns.toNat
  let aouthdr := aouthdr.fill ((file.fseek 20).fread 28).1
  (aouthdr.read32 16,
    (file.coffSections numsect 0 sect).foldl file.loadSection m)

theorem fread_length (count : ℕ) (file : CFile) :
    (file.fread count).1.length = min count (file.bytes.length - file.pos) := by
  simp [fread]

theorem sectionBytes_length (file : CFile) (sect : CoffSection) :
    (file.sectionBytes sect).length =
      min sect.size.toNat (file.bytes.length - sect.scnptr.toNat) :=
  fread_length _ _

end CFile

end BrickEmu
