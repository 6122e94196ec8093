import BrickEmu.ProgramFiles
import BrickEmu.SlotModels

/-!
# Relocation of lx programs

An lx file is its header, the bytes of text and data and the offsets of the
words to relocate.  Relocations that do not overlap do not depend on each
other: each word is moved by the distance of the program from its base, and
the other bytes are those of the file.
-/

namespace BrickEmu

open Memory

/-- A complete lx file, with anything behind it. -/
structure LxFile where
  header : LxHeader
  image : List Byte
  relocs : List Word
  rest : List Byte
  version : header.version = 0
  length_image : image.length =
    header.textSize.toNat + header.dataSize.toNat
  length_relocs : relocs.length = header.numRelocs.toNat

def LxHeader.bytes (header : LxHeader) : List Byte :=
  [header.version, header.base, header.textSize, header.dataSize,
    header.bssSize, header.stackSize, header.offset,
    header.numRelocs].flatMap bytes16

namespace LxFile

def bytes (file : LxFile) : List Byte :=
  lxSignature ++ (file.header.bytes ++
    (file.image ++ (file.relocs.flatMap bytes16 ++ file.rest)))

/-- The word of the file at an offset of text and data. -/
def word (file : LxFile) (offset : ℕ) : ℕ :=
  (file.image.getD offset 0).toNat * 256 +
    (file.image.getD (offset + 1) 0).toNat

/-- The relocation words do not overlap and lie inside text and data. -/
structure Relocatable (file : LxFile) : Prop where
  apart : file.relocs.Pairwise fun r r' =>
    r.toNat + 2 ≤ r'.toNat ∨ r'.toNat + 2 ≤ r.toNat
  inside : ∀ r ∈ file.relocs, r.toNat + 2 ≤ file.header.program.loaded

/-- The program is at `start`. -/
structure RelocatedTo (file : LxFile) (start : ℕ) (mem : Memory) : Prop where
  words : ∀ r ∈ file.relocs, (mem.readWord (start + r.toNat) : ℤ) =
    (file.word r.toNat + start - file.header.base.toNat) % 2 ^ 16
  others : ∀ i < file.header.program.loaded,
    (∀ r ∈ file.relocs, i < r.toNat ∨ r.toNat + 2 ≤ i) →
      mem (start + i) = file.image.getD i 0
  bss : ∀ i < file.header.bssSize.toNat,
    mem (start + file.header.program.loaded + i) = 0
  copy : ∀ i < file.header.dataSize.toNat,
    mem (start + file.header.program.extent + i) =
      mem (start + file.header.textSize.toNat + i)

end LxFile

/-! ## Reading a complete file -/

theorem CFile.lxRelocs_eq {relocs : List Word} {rest : List Byte} :
    ∀ (file : CFile) (reloc : Word),
      file.bytes.drop file.pos = relocs.flatMap bytes16 ++ rest →
        file.lxRelocs relocs.length reloc = relocs := by
  induction relocs with
  | nil =>
      intro file reloc _
      rfl
  | cons r relocs ih =>
      intro file reloc h
      rw [List.flatMap_cons, List.append_assoc] at h
      have hread : file.fread 2 =
          (bytes16 r, { file with pos := file.pos + 2 }) := fread_append _ h
      have hword : freadWord reloc (bytes16 r) = r := append_bytes16 r
      rw [List.length_cons, lxRelocs]
      simp only [hread, hword]
      rw [ih _ r (drop_fread _ h)]

theorem LxHeader.ofBuffer_bytes (header : LxHeader) (buf : Buffer) :
    LxHeader.ofBuffer (buf.fill header.bytes) = header := by
  obtain ⟨version, base, textSize, dataSize, bssSize, stackSize, offset,
    numRelocs⟩ := header
  rw [LxHeader.ofBuffer, LxHeader.mk.injEq]
  exact ⟨append_bytes16 version, append_bytes16 base, append_bytes16 textSize,
    append_bytes16 dataSize, append_bytes16 bssSize,
    append_bytes16 stackSize, append_bytes16 offset,
    append_bytes16 numRelocs⟩

namespace LxFile

variable (file : LxFile)

theorem not_coffInit (buf : Buffer) :
    ¬CFile.coffInit buf ⟨file.bytes, 0⟩ = true := by
  have hmagic : (CoffHeader.ofBuffer (buf.fill ((⟨file.bytes, 0⟩ :
      CFile).fread 20).1)).magic = (0x62 : Byte) ++ (0x72 : Byte) := rfl
  rw [CFile.coffInit, decide_eq_true_eq]
  rintro ⟨hcoff, -⟩
  rw [hmagic] at hcoff
  revert hcoff
  decide

theorem lxInit_eq (signature header : Buffer) :
    CFile.lxInit signature header ⟨file.bytes, 0⟩ = some file.header := by
  have hsignature : ((⟨file.bytes, 0⟩ : CFile).fseek 0).fread 8 =
      (lxSignature, ⟨file.bytes, 8⟩) :=
    CFile.fread_append ⟨file.bytes, 0⟩ List.drop_zero
  have hdrop : file.bytes.drop lxSignature.length = file.header.bytes ++
      (file.image ++ (file.relocs.flatMap bytes16 ++ file.rest)) :=
    List.drop_left
  have hheader : (⟨file.bytes, 8⟩ : CFile).fread 16 =
      (file.header.bytes, ⟨file.bytes, 24⟩) :=
    CFile.fread_append ⟨file.bytes, 8⟩ hdrop
  have hslice : (signature.fill lxSignature).slice 0 8 = lxSignature := rfl
  have hversion := file.version
  rw [CFile.lxInit]
  simp only [hsignature, hheader, hslice, LxHeader.ofBuffer_bytes,
    hversion, ne_eq, not_true_eq_false, if_false]

/-- A complete file is read as it is. -/
theorem programFile_eq (v : LoadVariables) :
    programFile v file.bytes =
      .lx file.header.program file.image file.relocs := by
  have hdrop : file.bytes.drop 24 =
      file.image ++ (file.relocs.flatMap bytes16 ++ file.rest) := by
    have hlength : (lxSignature ++ file.header.bytes).length = 24 := rfl
    rw [bytes, ← List.append_assoc, ← hlength, List.drop_left]
  have himage : ((⟨file.bytes, 0⟩ : CFile).fseek 24).fread
      (file.header.textSize.toNat + file.header.dataSize.toNat) =
      (file.image, ⟨file.bytes, 24 + file.image.length⟩) := by
    rw [← file.length_image]
    exact CFile.fread_append ⟨file.bytes, 24⟩ hdrop
  have hrelocs := CFile.lxRelocs_eq
    ⟨file.bytes, 24 + file.image.length⟩ v.reloc
    (CFile.drop_fread ⟨file.bytes, 24⟩ hdrop)
  rw [file.length_relocs] at hrelocs
  rw [programFile]
  simp only [if_neg (file.not_coffInit v.coffInit), file.lxInit_eq, himage,
    hrelocs]

end LxFile

/-! ## Relocation -/

section Relocate

variable {start base x : ℕ} {mem : Memory} {relocs : List Word}

/-- The other bytes are kept. -/
theorem relocate_foldl_of_notMem
    (hx : ∀ r ∈ relocs, x < r.toNat ∨ r.toNat + 2 ≤ x) :
    relocs.foldl (relocate start base) mem (start + x) = mem (start + x) := by
  induction relocs generalizing mem with
  | nil => rfl
  | cons r relocs ih =>
      rw [List.forall_mem_cons] at hx
      rw [List.foldl_cons, ih hx.2]
      apply writeWord_of_ne <;> omega

/-- Every word is moved once. -/
theorem readWord_relocate_foldl
    (hapart : relocs.Pairwise fun r r' =>
      r.toNat + 2 ≤ r'.toNat ∨ r'.toNat + 2 ≤ r.toNat) {r : Word}
    (hr : r ∈ relocs) :
    (relocs.foldl (relocate start base) mem).readWord (start + r.toNat) =
      (mem.readWord (start + r.toNat) + start + 65536 - base) % 65536 := by
  induction relocs generalizing mem with
  | nil => cases hr
  | cons r' relocs ih =>
      obtain ⟨hfirst, hrest⟩ := List.pairwise_cons.mp hapart
      rw [List.foldl_cons]
      rcases List.mem_cons.mp hr with rfl | hr
      · have hkept : ∀ i < 2, relocs.foldl (relocate start base)
            (relocate start base mem r) (start + (r.toNat + i)) =
            relocate start base mem r (start + (r.toNat + i)) := by
          intro i hi
          apply relocate_foldl_of_notMem
          intro r' hr'
          have hapart := hfirst r' hr'
          omega
        have hword := readWord_congr (hkept 0 (by omega))
          (hkept 1 (by omega))
        rw [add_zero] at hword
        rw [hword, relocate, readWord_writeWord (Nat.mod_lt _ (by decide))]
      · have hapart := hfirst r hr
        rw [ih hrest hr, relocate, readWord_writeWord_of_apart (by omega)]

end Relocate

/-! ## Loading -/

section Install

variable {prog text x : ℕ} {header : ProgramHeader} {file : ProgramFile}
  {mem : Memory}

theorem writeBytes_of_inside {bytes : List Byte} {addr i : ℕ}
    (hi : i < bytes.length) :
    mem.writeBytes addr bytes (addr + i) = bytes.getD i 0 := by
  rw [writeBytes, if_pos (by omega), Nat.add_sub_cancel_left,
    List.getD_eq_getElem _ _ hi, List.getD_eq_getElem _ _ hi]

/-- Text and data are left as they are read. -/
theorem install_loaded {i : ℕ} (hi : i < header.loaded)
    (hslot : text + i ≠ prog + 20 ∧ text + i ≠ prog + 21) :
    install prog text header file mem (text + i) =
      readProgram file text (writeSlot prog text header mem) (text + i) := by
  have hextent : header.loaded ≤ header.extent := Nat.le_add_right _ _
  rw [install, writeWord_of_ne hslot.1 hslot.2,
    writeBytes_of_outside (by omega), writeBytes_of_outside (by omega)]

theorem install_bss {i : ℕ} (hi : i < header.bssSize.toNat)
    (hslot : text + header.loaded + i ≠ prog + 20 ∧
      text + header.loaded + i ≠ prog + 21) :
    install prog text header file mem (text + header.loaded + i) = 0 := by
  have hextent : header.extent = header.loaded + header.bssSize.toNat := rfl
  rw [install, writeWord_of_ne hslot.1 hslot.2,
    writeBytes_of_outside (by omega),
    writeBytes_of_inside (by rwa [List.length_replicate]),
    List.getD_eq_getElem?_getD, List.getElem?_replicate_of_lt hi,
    Option.getD_some]

/-- The copy of the data is taken from what is read. -/
theorem install_copy {i : ℕ} (hi : i < header.dataSize.toNat)
    (hslot : text + header.extent + i ≠ prog + 20 ∧
      text + header.extent + i ≠ prog + 21) :
    install prog text header file mem (text + header.extent + i) =
      readProgram file text (writeSlot prog text header mem)
        (text + header.textSize.toNat + i) := by
  have hloaded : header.loaded =
      header.textSize.toNat + header.dataSize.toNat := rfl
  rw [install, writeWord_of_ne hslot.1 hslot.2,
    writeBytes_of_inside (by rwa [List.length_map, List.length_range]),
    List.getD_eq_getElem?_getD, List.getElem?_map, List.getElem?_range hi,
    Option.map_some, Option.getD_some, writeBytes_of_outside (by omega)]

end Install

/-- The block of a program in a well-formed heap is away from the table. -/
theorem Placed.slot_apart {mmStart cell programs : ℕ}
    {heap : BrickosHeap mmStart cell}
    (htable : TableApart (brickosModel mmStart cell) programs)
    {slot : Fin 8} (hfreeable : Freeable (brickosModel mmStart cell) programs
      heap slot)
    {file : ProgramFile} {header : ProgramHeader} {start : ℕ}
    {taken : Memory} (h : Placed (brickosAllocator mmStart cell) programs
      slot file heap.memory header start taken) {x : ℕ} (hx : start ≤ x) :
    x < slotAddr programs slot ∨ slotAddr programs slot + 22 ≤ x := by
  obtain ⟨freed, hfree, hmalloc⟩ := h.granted
  obtain ⟨heap', rfl⟩ : ∃ heap' : BrickosHeap mmStart cell,
      heap'.memory = freed := by
    rw [freeSlot] at hfree
    by_cases hocc : occupied programs slot heap.memory
    · obtain ⟨heap', hrun, -⟩ := BrickosHeap.live_free (hfreeable hocc)
      rw [if_pos hocc] at hfree
      exact ⟨heap', Option.some.inj (hrun.symm.trans hfree)⟩
    · rw [if_neg hocc] at hfree
      exact ⟨heap, Option.some.inj hfree⟩
  obtain ⟨addr, heap'', hrun, -, -, hlive⟩ :=
    heap'.live_malloc (header.total % 65536)
  obtain rfl : addr = start :=
    congrArg Prod.fst (Option.some.inj (hrun.symm.trans hmalloc))
  obtain ⟨hlow, hhigh⟩ := slotAddr_le programs slot
  have hregion := BrickosHeap.live_region (hlive h.text_ne).1 x hx
  have hapart : ¬(programs ≤ x ∧ x < programs + 176) :=
    fun hin => htable x hin.1 hin.2 hregion
  omega

namespace LxFile

variable {file : LxFile} {prog start : ℕ} {taken : Memory}

/-- The bytes of text and data in front of the relocations. -/
theorem image_eq {mem : Memory} {i : ℕ}
    (hi : i < file.header.program.loaded) :
    mem.writeBytes start (file.image.take file.header.program.loaded)
      (start + i) = file.image.getD i 0 := by
  have hlength : file.image.length = file.header.program.loaded :=
    file.length_image
  rw [← hlength, List.take_length, writeBytes_of_inside (by omega)]

theorem word_eq {mem : Memory} {r : ℕ}
    (hr : r + 2 ≤ file.header.program.loaded) :
    (mem.writeBytes start
      (file.image.take file.header.program.loaded)).readWord (start + r) =
        file.word r := by
  rw [Memory.readWord, image_eq (by omega), add_assoc,
    image_eq (by omega), word]

/-- A file that is installed in a place that the slot is not in. -/
theorem relocatedTo_install (h : file.Relocatable)
    (hslot : ∀ x, start ≤ x → x < start + file.header.program.total →
      x ≠ prog + 20 ∧ x ≠ prog + 21) :
    file.RelocatedTo start (install prog start file.header.program
      (.lx file.header.program file.image file.relocs) taken) := by
  obtain ⟨hapart, hinside⟩ := h
  have hextent : file.header.program.extent =
      file.header.program.loaded + file.header.bssSize.toNat := rfl
  have hloaded : file.header.program.loaded =
      file.header.textSize.toNat + file.header.dataSize.toNat := rfl
  have htotal : file.header.program.total =
      file.header.program.extent + file.header.dataSize.toNat := by
    rw [ProgramHeader.total, hextent, hloaded]
    change file.header.textSize.toNat + 2 * file.header.dataSize.toNat +
      file.header.bssSize.toNat = _
    omega
  have hread : ∀ i < file.header.program.loaded,
      install prog start file.header.program
        (.lx file.header.program file.image file.relocs) taken (start + i) =
      readProgram (.lx file.header.program file.image file.relocs) start
        (writeSlot prog start file.header.program taken) (start + i) :=
    fun i hi => install_loaded hi (hslot _ (by omega) (by omega))
  constructor
  · intro r hr
    have hbase := file.header.base.isLt
    have hr' := hinside r hr
    rw [readWord_congr (hread r.toNat (by omega))
      (hread (r.toNat + 1) (by omega)), readProgram, lxRead,
      readWord_relocate_foldl hapart hr, word_eq hr']
    rw [show file.header.program.base = file.header.base from rfl]
    omega
  · intro i hi hothers
    rw [hread i hi, readProgram, lxRead, relocate_foldl_of_notMem hothers,
      image_eq hi]
  · intro i hi
    exact install_bss hi (hslot _ (by omega) (by omega))
  · intro i hi
    rw [add_assoc start file.header.textSize.toNat,
      hread (file.header.textSize.toNat + i) (by omega), ← add_assoc]
    exact install_copy hi (hslot _ (by omega) (by omega))

/-- A program that `load_program` places is relocated, and outside its block
and its slot the memory is what the allocator has left. -/
theorem loadProgram_relocates {mmStart cell programs : ℕ} {slot : Fin 8}
    {v : LoadVariables} {mem : Memory} (h : file.Relocatable)
    (htotal : file.header.program.total < 65536)
    (hplaced : Placed (brickosAllocator mmStart cell) programs slot
      (programFile v file.bytes) mem file.header.program start taken)
    (hslot : ∀ x, start ≤ x → x < start + file.header.program.total →
      x ≠ slotAddr programs slot + 20 ∧ x ≠ slotAddr programs slot + 21) :
    ∃ mem', brickosLoadProgram mmStart cell programs slot
        (programFile v file.bytes) mem = some mem' ∧
      file.RelocatedTo start mem' ∧
      ∀ x, x < start ∨ start + file.header.program.total ≤ x →
        x < slotAddr programs slot ∨ slotAddr programs slot + 22 ≤ x →
          mem' x = taken x := by
  refine ⟨_, hplaced.loadProgram_eq, ?_, ?_⟩
  · rw [file.programFile_eq v]
    exact relocatedTo_install h hslot
  · intro x hblock hprog
    have hfits : (programFile v file.bytes).Fits file.header.program start := by
      rw [file.programFile_eq v]
      refine ⟨htotal, fun r hr => ?_⟩
      have hr' := h.inside r hr
      unfold ProgramHeader.loaded at hr'
      unfold ProgramHeader.total
      omega
    rw [install_of_outside hplaced.header_eq hfits hblock,
      writeWord_of_ne (by omega) (by omega), writeSlot_of_outside hprog]

/-- A file of nine bytes takes the place of the program in slot 0. -/
theorem placed_oneProgram (file : LxFile) (v : LoadVariables)
    (hnine : file.header.program.total % 65536 = 9) :
    ∃ taken, taken.readWord 0x8002 = 5 ∧
      Placed (brickosAllocator 0x8000 0x7ffe) 0x7000 0
        (programFile v file.bytes) oneProgram.memory file.header.program
        0x8004 taken := by
  have hplace : ((freeSlot (brickosAllocator 0x8000 0x7ffe) 0x7000 0
      oneProgram.memory).bind fun freed =>
        (brickosMalloc 0x8000 0x7ffe 9 freed).map fun placed =>
          (placed.1, placed.2.readWord 0x8002)) = some (0x8004, 5) := by
    decide +kernel
  obtain ⟨freed, hfree, hmalloc⟩ := Option.bind_eq_some_iff.mp hplace
  obtain ⟨⟨start, taken⟩, hmalloc, heq⟩ := Option.map_eq_some_iff.mp hmalloc
  rw [Prod.mk.injEq] at heq
  obtain ⟨rfl, hlen⟩ := heq
  refine ⟨taken, hlen, ?_⟩
  rw [file.programFile_eq v]
  refine ⟨rfl, ⟨freed, hfree, ?_⟩, by decide, by rintro ⟨⟩⟩
  rw [hnine]
  exact hmalloc

/-- Variables that are all zero. -/
def zeroVariables : LoadVariables where
  coffInit := fun _ => 0
  aouthdr := fun _ => 0
  signature := fun _ => 0
  header := fun _ => 0
  coffHeader := fun _ => 0
  coffAouthdr := fun _ => 0
  sect := fun _ => 0
  reloc := 0

/-- A program with a relocation across the border of text and data. -/
def sampleFile : LxFile where
  header := ⟨0, 0x100, 4, 2, 1, 0, 0, 2⟩
  image := [0x12, 0x01, 0x20, 0x34, 0x01, 0x05]
  relocs := [1, 3]
  rest := []
  version := rfl
  length_image := rfl
  length_relocs := rfl

theorem loadProgram_relocates_sampleFile :
    ∃ taken mem',
      Placed (brickosAllocator 0x8000 0x7ffe) 0x7000 0
        (programFile zeroVariables sampleFile.bytes) oneProgram.memory
        sampleFile.header.program 0x8004 taken ∧
      brickosLoadProgram 0x8000 0x7ffe 0x7000 0
        (programFile zeroVariables sampleFile.bytes) oneProgram.memory =
          some mem' ∧
      sampleFile.RelocatedTo 0x8004 mem' := by
  have htotal : sampleFile.header.program.total = 9 := rfl
  obtain ⟨taken, -, hplaced⟩ :=
    placed_oneProgram sampleFile zeroVariables rfl
  have hrelocatable : sampleFile.Relocatable := by
    constructor <;>
      simp [sampleFile, ProgramHeader.loaded, LxHeader.program]
  have hslot : ∀ x, 0x8004 ≤ x →
      x < 0x8004 + sampleFile.header.program.total →
        x ≠ slotAddr 0x7000 0 + 20 ∧ x ≠ slotAddr 0x7000 0 + 21 := by
    intro x hx _
    have hapart := hplaced.slot_apart tableApart_oneProgram (fun _ =>
      ⟨⟨0x8000, 0xfffe, 0x10⟩, List.mem_cons_self, by decide,
        by decide +kernel⟩) hx
    omega
  obtain ⟨mem', hload, hrelocated, -⟩ := loadProgram_relocates hrelocatable
    (by omega) hplaced hslot
  exact ⟨taken, mem', hplaced, hload, hrelocated⟩

end LxFile

end BrickEmu
