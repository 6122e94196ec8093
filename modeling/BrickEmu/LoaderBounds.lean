import BrickEmu.FileLoaders
import BrickEmu.SrecFile

/-!
# Where the loaders write to

None of the three readers checks an address that it takes from a file.  They
stay inside `memory` exactly for the files whose records, sections, images
and relocations do.
-/

namespace BrickEmu

/-- Bytes from an address on are inside `memory`. -/
def FitsMemory (addr count : ℕ) : Prop :=
  count = 0 ∨ addr + count ≤ 0x10000

instance (addr count : ℕ) : Decidable (FitsMemory addr count) :=
  inferInstanceAs (Decidable (_ ∨ _))

theorem LoadMemory.inRange_store_iff (addr : ℕ) (bytes : List Byte)
    (m : LoadMemory) :
    (m.store addr bytes).InRange ↔
      m.InRange ∧ FitsMemory addr bytes.length := by
  rw [inRange_store, FitsMemory, List.length_eq_zero_iff]

/-! ## S-records -/

/-- A line is a record, apart from its checksum. -/
def IsRecord (buf : List Byte) : Prop :=
  ∃ type address data checksum,
    RecordShape (recordText buf) type address data checksum

/-- The data of type 1 in a line fits. -/
def RecordFits (buf : List Byte) : Prop :=
  ∀ address data checksum,
    RecordShape (recordText buf) 1 address data checksum →
      FitsMemory (bigEndian address) data.length

/-- The data of type 1 fits in all lines up to the first one that is neither
blank nor a record. -/
def RecordsFit : List (List Byte) → Prop
  | [] => True
  | buf :: bufs =>
      (isBlank buf → RecordsFit bufs) ∧
        (IsRecord buf → RecordFits buf ∧ RecordsFit bufs)

theorem recordFits_iff {buf : List Byte} {type : ℕ}
    {address data : List Byte} {checksum : Byte}
    (h : RecordShape (recordText buf) type address data checksum) :
    RecordFits buf ↔
      (type = 1 → FitsMemory (bigEndian address) data.length) := by
  constructor
  · rintro hfits rfl
    exact hfits address data checksum h
  · intro hfits address' data' checksum' h'
    obtain ⟨htype, rfl, rfl⟩ := h.unique h'
    exact hfits htype

theorem SrecReader.loop_inRange_iff (bufs : List (List Byte)) :
    ∀ s : SrecReader, (loop bufs s).2.image.InRange ↔
      s.image.InRange ∧ RecordsFit bufs := by
  induction bufs with
  | nil =>
      intro s
      simp [loop, RecordsFit]
  | cons buf bufs ih =>
      intro s
      rw [RecordsFit]
      by_cases hrecord : IsRecord buf
      · obtain ⟨type, address, data, checksum, hshape⟩ := id hrecord
        have himage := (process_srecOf s type address data).1
        have hstored : (if type = 1 then
            s.image.store (bigEndian address) data else s.image).InRange ↔
            s.image.InRange ∧ RecordFits buf := by
          rw [recordFits_iff hshape]
          by_cases hone : type = 1
          · rw [if_pos hone, LoadMemory.inRange_store_iff, imp_iff_right hone]
          · rw [if_neg hone, and_iff_left fun h => absurd h hone]
        rw [loop_shape hshape, ih, himage, hstored, and_assoc,
          imp_iff_right hrecord,
          and_iff_right fun hblank => absurd hblank hshape.not_isBlank]
      · have hno : IsRecord buf → RecordFits buf ∧ RecordsFit bufs :=
          fun h => absurd h hrecord
        rw [and_iff_left hno, loop]
        by_cases hblank : isBlank buf
        · rw [if_pos hblank, ih, imp_iff_right hblank]
        · have hrejected : (srecDecode s.srec buf).1 ≠ .ok ∧
              (srecDecode s.srec buf).1 ≠ .invalidCksum := by
            by_contra haccepted
            rw [not_and_or, not_not, not_not] at haccepted
            exact hrecord (exists_shape haccepted)
          rw [if_neg hblank, and_iff_left fun h => absurd h hblank]
          simp only [if_pos hrejected]

/-! ## lx and COFF files -/

theorem LoadMemory.inRange_relocate (start : ℕ) (base : Word)
    (m : LoadMemory) (reloc : Word) :
    (m.relocate start base reloc).InRange ↔
      m.InRange ∧ FitsMemory (start + reloc.toNat) 2 := by
  rw [relocate, inRange_store_iff, length_bytes16]

/-- The image and the relocated words of an lx file that is loaded to an
address fit. -/
def LxFits (file : CFile) (header : LxHeader) (start : ℕ) (reloc : Word) :
    Prop :=
  FitsMemory start (min (header.textSize.toNat + header.dataSize.toNat)
    (file.bytes.length - 24)) ∧
  ∀ r ∈ CFile.lxRelocs header.numRelocs.toNat reloc
      ((file.fseek 24).fread
        (header.textSize.toNat + header.dataSize.toNat)).2,
    FitsMemory (start + r.toNat) 2

theorem CFile.lxRead_inRange_iff (file : CFile) (header : LxHeader)
    (start : ℕ) (reloc : Word) (m : LoadMemory) :
    (file.lxRead header start reloc m).InRange ↔
      m.InRange ∧ LxFits file header start reloc := by
  rw [lxRead, LoadMemory.foldl_iff
    (LoadMemory.inRange_relocate start header.base),
    LoadMemory.inRange_store_iff, fread_length, LxFits, and_assoc]
  rfl

/-- A section that is loaded fits. -/
def SectionFits (file : CFile) (sect : CoffSection) : Prop :=
  sect.flags &&& STYP_LOAD ≠ 0 → FitsMemory sect.paddr.toNat
    (min sect.size.toNat (file.bytes.length - sect.scnptr.toNat))

theorem CFile.loadSection_inRange_iff (file : CFile) (m : LoadMemory)
    (sect : CoffSection) :
    (file.loadSection m sect).InRange ↔
      m.InRange ∧ SectionFits file sect := by
  rw [loadSection, SectionFits]
  by_cases hload : sect.flags &&& STYP_LOAD ≠ 0
  · rw [if_pos hload, LoadMemory.inRange_store_iff, sectionBytes_length,
      imp_iff_right hload]
  · rw [if_neg hload, and_iff_left fun h => absurd h hload]

/-- Every section of a COFF file that is loaded fits. -/
def CoffFits (file : CFile) (header sect : Buffer) : Prop :=
  ∀ s ∈ file.coffSections (file.coffHeader header).nscns.toNat 0 sect,
    SectionFits file s

theorem CFile.coffRead_inRange_iff (file : CFile)
    (header aouthdr sect : Buffer) (m : LoadMemory) :
    (file.coffRead header aouthdr sect m).2.InRange ↔
      m.InRange ∧ CoffFits file header sect := by
  rw [coffRead, CoffFits]
  exact LoadMemory.foldl_iff file.loadSection_inRange_iff _ m

/-! ## The three loaders -/

theorem inRange_nil (memory : Memory) :
    (⟨memory, []⟩ : LoadMemory).InRange := by
  intro addr haddr
  cases haddr

/-- For every file, every memory and everything that may be in the variables
of the readers: `srec_read`, `coff_read` and `lx_read` with any header and
start write only to `memory[0]` .. `memory[65535]` exactly if the records of
type 1 in front of the first wrong line fit, the sections that are loaded
fit, and the image and the relocated words fit. -/
theorem loaders_inRange_iff (bytes : List Byte) (pos : ℕ) (memory : Memory) :
    (∀ srec, (srecRead bytes srec memory).2.image.InRange ↔
      RecordsFit (fgetsAll bytes)) ∧
    (∀ header aouthdr sect,
      (CFile.coffRead header aouthdr sect ⟨bytes, pos⟩ ⟨memory, []⟩).2.InRange ↔
        CoffFits ⟨bytes, pos⟩ header sect) ∧
    (∀ (header : LxHeader) (start : Word) (reloc : Word),
      (CFile.lxRead header start.toNat reloc ⟨bytes, pos⟩
          ⟨memory, []⟩).InRange ↔
        LxFits ⟨bytes, pos⟩ header start.toNat reloc) := by
  have hstart := inRange_nil memory
  refine ⟨fun srec => ?_, fun header aouthdr sect => ?_,
    fun header start reloc => ?_⟩
  · rw [srecRead, SrecReader.loop_inRange_iff, and_iff_right hstart]
  · rw [CFile.coffRead_inRange_iff, and_iff_right hstart]
  · rw [CFile.lxRead_inRange_iff, and_iff_right hstart]

/-- A file with a record of type 1 for two bytes at 0xffff. -/
def overhangingRecord : List Byte :=
  encodeRecord 1 2 0xffff [0, 0]

/-- An lx file with one relocation of the word at offset 0. -/
def oneReloc : LxHeader :=
  ⟨0, 0, 0, 0, 0, 0, 0, 1⟩

/-- The record writes behind `memory`, and so does the relocation if the
program starts at 0xffff. -/
theorem loaders_fail_lastByte :
    ¬(srecRead overhangingRecord ⟨0, 0, 0, fun _ => 0⟩
        fun _ => 0).2.image.InRange ∧
      ¬(CFile.lxRead oneReloc 0xffff 0 ⟨List.replicate 26 0, 0⟩
        ⟨fun _ => 0, []⟩).InRange := by
  constructor
  · have hwidth : addrWidth 1 = some 2 := rfl
    have htext : recordText overhangingRecord = overhangingRecord := by
      have h := recordText_encode 0xffff [0, 0] hwidth [] rfl
      rwa [List.append_nil] at h
    have hshape := recordShape_encode 0xffff [0, 0] hwidth (by decide)
    have hbufs : fgetsAll overhangingRecord = [overhangingRecord] :=
      fgetsAll_last (by decide) (by decide) (by decide)
    rw [srecRead, SrecReader.loop_inRange_iff, hbufs, RecordsFit]
    rintro ⟨-, -, hfits⟩
    change RecordShape overhangingRecord _ _ _ _ at hshape
    rw [← htext] at hshape
    have hbytes := (recordFits_iff hshape).mp (hfits ⟨_, _, _, _, hshape⟩).1 rfl
    rw [bigEndian_addressBytes (by decide)] at hbytes
    revert hbytes
    decide
  · rw [CFile.lxRead_inRange_iff]
    rintro ⟨-, -, hrelocs⟩
    have hword := hrelocs 0 (by decide)
    revert hword
    decide

end BrickEmu
