import BrickEmu.FileLoaders
import BrickEmu.SavefileSymbols
import BrickEmu.SymbolRemoval

/-!
# The symbols of COFF files

`coff_symbols` reads the string table and then one entry of the symbol table
after the other.  The auxiliary entries behind an entry are passed over, but
the loop counts its passes by the entries it reads, and the header counts the
auxiliary entries as well.

An offset into the string table counts from the length in front of it.  The
positions at which entries are read are recorded in a history variable.
-/

namespace BrickEmu

open SplayTree

def C_EXT : Byte := 2
def C_STAT : Byte := 3
def C_LABEL : Byte := 6

/-- The character `.` -/
def DOT : Byte := 0x2e

/-- The variables of the loop of `coff_symbols`. -/
structure CoffReader where
  file : CFile
  entry : Buffer
  root : SymbolTree
  positions : List ℕ

/-- The string table, with what is in its memory in front of it and behind
the end of the file. -/
structure StringTable where
  bytes : Buffer
  size : ℕ

namespace StringTable

def name (table : StringTable) (offset : ℕ) : List Byte :=
  (table.bytes.slice offset (table.size - offset)).takeWhile (· ≠ 0)

end StringTable

namespace CoffReader

/-- The name of the entry: it is in the entry or in the string table. -/
def entryName (table : StringTable) (entry : Buffer) : List Byte :=
  if entry.read32 0 ≠ 0 then cString entry 8
  else table.name (entry.read32 4).toNat

/-- The test for what is added, which looks labels up in the table. -/
def isWanted (name : List Byte) (sclass : Byte) (address : Word)
    (root : SymbolTree) : Bool × SymbolTree :=
  if name.headD 0 = DOT then (false, root)
  else if sclass = C_EXT ∨ sclass = C_STAT then (true, root)
  else if sclass = C_LABEL then
    let (found, root) := symbolsGet address 0 root
    (found.isNone, root)
  else (false, root)

/-- One pass of the loop. -/
def pass (table : StringTable) (s : CoffReader) : CoffReader :=
  let (bytes, file) := s.file.fread 18
  let entry := s.entry.fill bytes
  let address := (entry.read32 8).setWidth 16
  let name := entryName table entry
  let (wanted, root) := isWanted name (entry 16) address s.root
  let root := if wanted then symbolsAdd ⟨address, 0, name⟩ root else root
  let numaux := (entry 17).toNat
  { file := if numaux ≠ 0 then file.fseek (file.pos + 18 * numaux) else file
    entry := entry
    root := root
    positions := s.positions ++ [s.file.pos] }

def loop (table : StringTable) : ℕ → CoffReader → CoffReader
  | 0, s => s
  | count + 1, s => loop table count (s.pass table)

end CoffReader

/-- The string table behind `nsyms` entries: `buf` has its length, and the
memory for it is not initialized. -/
def CFile.stringTable (file : CFile) (header : CoffHeader)
    (buf memory : Buffer) : StringTable :=
  let (bytes, file) :=
    (file.fseek (header.symptr + 18 * header.nsyms).toNat).fread 4
  let length := (buf.fill bytes).read32 0
  let strings := (file.fread length.toNat).1
  { bytes := fun i =>
      if i < 4 then memory i else strings.getD (i - 4) (memory i)
    size := (length + 4).toNat }

/-- `coff_symbols`, whose parameter `start` is not used. -/
def CFile.coffSymbols (header buf memory entry : Buffer) (file : CFile)
    (root : SymbolTree) : CoffReader :=
  let header := file.coffHeader header
  let table := file.stringTable header buf memory
  CoffReader.loop table header.nsyms.toNat
    ⟨file.fseek header.symptr.toNat, entry, root, []⟩

/-! ## Well-formed files -/

/-- A name of up to eight characters in the entry, or the offset of a name in
the string table. -/
inductive CoffName where
  | inline (text : List Byte) (length : text.length = 8)
      (nonzero : text.take 4 ≠ [0, 0, 0, 0])
  | inTable (offset : BitVec 32)

namespace CoffName

def bytes : CoffName → List Byte
  | inline text _ _ => text
  | inTable offset => [0, 0, 0, 0] ++ bytes32 offset

def chars (strings : List Byte) : CoffName → List Byte
  | inline text _ _ => text.takeWhile (· ≠ 0)
  | inTable offset => (strings.drop (offset.toNat - 4)).takeWhile (· ≠ 0)

theorem length_bytes (name : CoffName) : name.bytes.length = 8 := by
  cases name with
  | inline text length nonzero => exact length
  | inTable offset => rfl

end CoffName

/-- A primary entry with its auxiliary entries. -/
structure CoffEntry where
  name : CoffName
  value : BitVec 32
  scnum : Word
  type : Word
  sclass : Byte
  aux : List (List Byte)
  count : aux.length < 256
  width : ∀ entry ∈ aux, entry.length = 18

namespace CoffEntry

/-- The entry itself. -/
def primary (e : CoffEntry) : List Byte :=
  e.name.bytes ++ (bytes32 e.value ++ (bytes16 e.scnum ++ (bytes16 e.type ++
    [e.sclass, BitVec.ofNat 8 e.aux.length])))

def bytes (e : CoffEntry) : List Byte :=
  e.primary ++ e.aux.flatten

/-- The number of entries of the symbol table. -/
def number (e : CoffEntry) : ℕ :=
  1 + e.aux.length

def address (e : CoffEntry) : Word :=
  e.value.setWidth 16

/-- The symbols after an entry: it is added if its name does not start with a
dot and it is external, static, or a label where there is no symbol yet. -/
def addTo (strings : List Byte) (table : List Symbol) (e : CoffEntry) :
    List Symbol :=
  if (e.name.chars strings).headD 0 ≠ DOT ∧
      (e.sclass = C_EXT ∨ e.sclass = C_STAT ∨
        (e.sclass = C_LABEL ∧ ∀ sym ∈ table, ¬sym.isAt e.address 0 = true)) then
    ⟨e.address, 0, e.name.chars strings⟩ :: table
  else table

end CoffEntry

/-- The name of an entry ends in the string table. -/
def CoffEntry.Named (strings : List Byte) (e : CoffEntry) : Prop :=
  ∀ offset, e.name = .inTable offset →
    4 ≤ offset.toNat ∧ 0 ∈ strings.drop (offset.toNat - 4)

/-- The positions of the primary entries of a symbol table. -/
def primaryPositions : ℕ → List CoffEntry → List ℕ
  | _, [] => []
  | pos, e :: entries =>
      pos :: primaryPositions (pos + 18 * e.number) entries

/-- A file with a symbol table, and behind it a string table and anything
else. -/
structure CoffFile where
  front : List Byte
  entries : List CoffEntry
  strings : List Byte
  rest : List Byte

namespace CoffFile

def table (file : CoffFile) : List Byte :=
  file.entries.flatMap CoffEntry.bytes

def bytes (file : CoffFile) : List Byte :=
  file.front ++ (file.table ++
    (bytes32 (BitVec.ofNat 32 (4 + file.strings.length)) ++
      (file.strings ++ file.rest)))

def header (file : CoffFile) : CoffHeader :=
  .ofBuffer fun i => file.front.getD i 0

/-- The header says where the symbol table is and how many entries it has,
auxiliary ones included, and names end in the string table. -/
structure WellFormed (file : CoffFile) : Prop where
  headed : 20 ≤ file.front.length
  symptr : file.header.symptr.toNat = file.front.length
  nsyms : file.header.nsyms.toNat =
    (file.entries.map CoffEntry.number).sum
  small : file.bytes.length < 2 ^ 32
  named : ∀ e ∈ file.entries, e.Named file.strings

/-- The primary entries are read once each, nothing else is read as an entry,
and the table has the symbols wanted besides those it had. -/
def ReadOnce (file : CoffFile) (root : SymbolTree) : Prop :=
  ∀ header buf memory entry pos,
    let s := CFile.coffSymbols header buf memory entry ⟨file.bytes, pos⟩ root
    s.positions = primaryPositions file.front.length file.entries ∧
      s.root.toList.Perm
        (file.entries.foldl (CoffEntry.addTo file.strings) root.toList)

end CoffFile

/-! ## Reading a well-formed file -/

theorem takeWhile_append_of_mem {text : List Byte} (h : 0 ∈ text)
    (rest : List Byte) :
    (text ++ rest).takeWhile (· ≠ 0) = text.takeWhile (· ≠ 0) := by
  induction text with
  | nil => cases h
  | cons ch text ih =>
      rw [List.cons_append, List.takeWhile_cons, List.takeWhile_cons]
      split
      · next hch =>
          rcases List.mem_cons.mp h with rfl | h
          · simp at hch
          · rw [ih h]
      · rfl

/-- What the string table in memory has to do with that in the file. -/
structure StringTable.Holds (table : StringTable) (strings : List Byte) :
    Prop where
  bytes_eq : ∀ i < strings.length, table.bytes (4 + i) = strings.getD i 0
  size_le : 4 + strings.length ≤ table.size

/-- A name that ends in the string table. -/
theorem StringTable.name_eq {table : StringTable} {strings : List Byte}
    {offset : ℕ} (h : table.Holds strings) (hlow : 4 ≤ offset)
    (hend : 0 ∈ strings.drop (offset - 4)) :
    table.name offset =
      (strings.drop (offset - 4)).takeWhile (· ≠ 0) := by
  obtain ⟨hbytes, hsize⟩ := h
  have hlt : offset - 4 < strings.length := by
    by_contra hge
    rw [List.drop_of_length_le (by omega)] at hend
    cases hend
  have hfirst : table.bytes.slice offset (strings.length - (offset - 4)) =
      strings.drop (offset - 4) := by
    apply List.ext_getElem
    · simp [Buffer.slice]
    · intro i hi hi'
      rw [List.length_drop] at hi'
      have hget := hbytes (offset - 4 + i) (by omega)
      rw [show 4 + (offset - 4 + i) = offset + i by omega,
        List.getD_eq_getElem _ _ (by omega)] at hget
      rw [List.getElem_drop, ← hget]
      simp [Buffer.slice]
  have hsplit : table.size - offset = strings.length - (offset - 4) +
      (table.size - 4 - strings.length) := by omega
  rw [name, hsplit, Buffer.slice, ← List.range'_append_1, List.map_append,
    ← Buffer.slice, hfirst, takeWhile_append_of_mem hend]

/-- The fields of an entry in the variable. -/
theorem CoffEntry.fields (e : CoffEntry) (buf : Buffer) :
    (buf.fill e.primary).read32 8 = e.value ∧
      buf.fill e.primary 16 = e.sclass ∧
      (buf.fill e.primary 17).toNat = e.aux.length := by
  have hcount := e.count
  have hvalue := append_bytes32 e.value
  have hname := e.name.length_bytes
  rw [primary]
  generalize e.name.bytes = name at hname
  match name, hname with
  | [_, _, _, _, _, _, _, _], _ =>
      refine ⟨hvalue, rfl, ?_⟩
      change (BitVec.ofNat 8 e.aux.length).toNat = e.aux.length
      rw [BitVec.toNat_ofNat]
      omega

theorem CoffEntry.length_primary (e : CoffEntry) : e.primary.length = 18 := by
  simp [primary, e.name.length_bytes]

theorem CoffEntry.length_bytes (e : CoffEntry) :
    e.bytes.length = 18 + 18 * e.aux.length := by
  have haux : e.aux.flatten.length = 18 * e.aux.length := by
    have hwidth : e.aux.map List.length = List.replicate e.aux.length 18 := by
      rw [List.eq_replicate_iff, List.length_map]
      refine ⟨rfl, fun n hn => ?_⟩
      obtain ⟨entry, hentry, rfl⟩ := List.mem_map.mp hn
      exact e.width entry hentry
    rw [List.length_flatten, hwidth, List.sum_replicate, smul_eq_mul, mul_comm]
  rw [bytes, List.length_append, e.length_primary, haux]

theorem append_eq_zero {v w : ℕ} {x : BitVec v} {y : BitVec w}
    (h : x ++ y = 0) : x = 0 ∧ y = 0 := by
  have hleft := BitVec.extractLsb'_append_eq_left (a := x) (b := y)
  have hright := BitVec.extractLsb'_append_eq_right (a := x) (b := y)
  rw [h] at hleft hright
  exact ⟨by simpa using hleft.symm, by simpa using hright.symm⟩

/-- The name of an entry in the variable. -/
theorem CoffEntry.entryName_eq (e : CoffEntry) (buf : Buffer)
    {table : StringTable} {strings : List Byte} (h : table.Holds strings)
    (hnamed : e.Named strings) :
    CoffReader.entryName table (buf.fill e.primary) =
      e.name.chars strings := by
  rw [CoffReader.entryName, primary]
  cases hname : e.name with
  | inline text length nonzero =>
      rw [CoffName.bytes, CoffName.chars]
      match text, length, nonzero with
      | [a, b, c, d, _, _, _, _], _, nonzero =>
          have hzeroes : a ++ b ++ c ++ d ≠ (0 : BitVec 32) := by
            intro hzero
            obtain ⟨habc, rfl⟩ := append_eq_zero hzero
            obtain ⟨hab, rfl⟩ := append_eq_zero habc
            obtain ⟨rfl, rfl⟩ := append_eq_zero hab
            exact nonzero rfl
          exact if_pos hzeroes
  | inTable offset =>
      obtain ⟨hlow, hend⟩ := hnamed offset hname
      have hoffset := append_bytes32 offset
      have hzeroes : ¬((0 : Byte) ++ (0 : Byte) ++ (0 : Byte) ++ (0 : Byte)) ≠
          (0 : BitVec 32) := by decide
      rw [CoffName.chars, ← table.name_eq h hlow hend]
      refine (if_neg hzeroes).trans ?_
      exact congrArg (fun offset : BitVec 32 => table.name offset.toNat) hoffset

namespace CoffReader

theorem isWanted_spec {root : SymbolTree} (h : SymbolsOrdered root)
    (name : List Byte) (sclass : Byte) (address : Word) :
    ((isWanted name sclass address root).1 = true ↔
      name.headD 0 ≠ DOT ∧ (sclass = C_EXT ∨ sclass = C_STAT ∨
        (sclass = C_LABEL ∧
          ∀ sym ∈ root.toList, ¬sym.isAt address 0 = true))) ∧
    (isWanted name sclass address root).2.toList = root.toList ∧
    SymbolsOrdered (isWanted name sclass address root).2 := by
  rw [isWanted]
  by_cases hdot : name.headD 0 = DOT
  · rw [if_pos hdot]
    exact ⟨iff_of_false Bool.false_ne_true fun hname => hname.1 hdot, rfl, h⟩
  by_cases hclass : sclass = C_EXT ∨ sclass = C_STAT
  · rw [if_neg hdot, if_pos hclass]
    refine ⟨iff_of_true rfl ⟨hdot, ?_⟩, rfl, h⟩
    rcases hclass with hext | hstat
    · exact .inl hext
    · exact .inr (.inl hstat)
  rw [if_neg hdot, if_neg hclass]
  rw [not_or] at hclass
  by_cases hlabel : sclass = C_LABEL
  · have hfound : (symbolsGet address 0 root).1 = none ↔
        ∀ sym ∈ root.toList, sym.isAt address 0 = false :=
      symbolsGet_eq_none_iff h
    rw [if_pos hlabel]
    refine ⟨?_, toList_symbolsGet address 0 root, h.get address 0⟩
    change (symbolsGet address 0 root).1.isNone = true ↔ _
    rw [Option.isNone_iff_eq_none, hfound]
    constructor
    · intro hall
      exact ⟨hdot, .inr (.inr ⟨hlabel, fun sym hsym =>
        Bool.eq_false_iff.mp (hall sym hsym)⟩)⟩
    · rintro ⟨-, hext | hstat | ⟨-, hall⟩⟩
      · exact absurd hext hclass.1
      · exact absurd hstat hclass.2
      · exact fun sym hsym => Bool.eq_false_iff.mpr (hall sym hsym)
  · rw [if_neg hlabel]
    refine ⟨iff_of_false Bool.false_ne_true ?_, rfl, h⟩
    rintro ⟨-, hext | hstat | ⟨hlabel', -⟩⟩
    · exact hclass.1 hext
    · exact hclass.2 hstat
    · exact hlabel hlabel'

end CoffReader

theorem CoffEntry.addTo_perm (strings : List Byte) (e : CoffEntry)
    {table table' : List Symbol} (h : table.Perm table') :
    (e.addTo strings table).Perm (e.addTo strings table') := by
  have hmem : (∀ sym ∈ table, ¬sym.isAt e.address 0 = true) ↔
      ∀ sym ∈ table', ¬sym.isAt e.address 0 = true :=
    forall_congr' fun sym => by rw [h.mem_iff]
  rw [addTo, addTo]
  simp only [hmem]
  split
  · exact h.cons _
  · exact h

theorem foldl_addTo_perm (strings : List Byte) (entries : List CoffEntry) :
    ∀ {table table' : List Symbol}, table.Perm table' →
      (entries.foldl (CoffEntry.addTo strings) table).Perm
        (entries.foldl (CoffEntry.addTo strings) table') := by
  induction entries with
  | nil =>
      intro table table' h
      exact h
  | cons e entries ih =>
      intro table table' h
      exact ih (e.addTo_perm strings h)

namespace CoffReader

variable {table : StringTable} {strings rest : List Byte}

/-- A pass at an entry: it is read, and its auxiliary entries are passed
over. -/
theorem pass_entry (htable : table.Holds strings) {e : CoffEntry}
    (hnamed : e.Named strings) {s : CoffReader}
    (hordered : SymbolsOrdered s.root)
    (hread : s.file.bytes.drop s.file.pos = e.bytes ++ rest) :
    (s.pass table).file =
        { s.file with pos := s.file.pos + e.bytes.length } ∧
      (s.pass table).positions = s.positions ++ [s.file.pos] ∧
      SymbolsOrdered (s.pass table).root ∧
      (s.pass table).root.toList.Perm (e.addTo strings s.root.toList) := by
  have hprimary : s.file.bytes.drop s.file.pos =
      e.primary ++ (e.aux.flatten ++ rest) := by
    rw [hread, CoffEntry.bytes, List.append_assoc]
  have hfread := CFile.fread_append _ hprimary
  rw [e.length_primary] at hfread
  obtain ⟨hvalue, hclass, haux⟩ := e.fields s.entry
  have hname := e.entryName_eq s.entry htable hnamed
  obtain ⟨hwanted, hlist, hroot⟩ := isWanted_spec hordered
    (e.name.chars strings) e.sclass e.address
  have hlength := e.length_bytes
  have hskip : (if e.aux.length ≠ 0 then
      CFile.fseek (s.file.pos + 18 + 18 * e.aux.length)
        { s.file with pos := s.file.pos + 18 }
      else { s.file with pos := s.file.pos + 18 }) =
        { s.file with pos := s.file.pos + e.bytes.length } := by
    rw [hlength]
    by_cases haux : e.aux.length = 0
    · rw [if_neg (not_not_intro haux), haux, mul_zero, add_zero]
    · rw [if_pos haux, add_assoc]
      rfl
  have hpass : s.pass table =
      { file := { s.file with pos := s.file.pos + e.bytes.length }
        entry := s.entry.fill e.primary
        root :=
          if (isWanted (e.name.chars strings) e.sclass e.address s.root).1 then
            symbolsAdd ⟨e.address, 0, e.name.chars strings⟩
              (isWanted (e.name.chars strings) e.sclass e.address s.root).2
          else (isWanted (e.name.chars strings) e.sclass e.address s.root).2
        positions := s.positions ++ [s.file.pos] } := by
    simp only [pass, hfread, hvalue, hclass, haux, hname, hskip]
    rfl
  rw [hpass]
  refine ⟨rfl, rfl, ?_⟩
  rw [CoffEntry.addTo, ← hlist]
  simp only [← hlist] at hwanted
  by_cases hadd : (isWanted (e.name.chars strings) e.sclass e.address
      s.root).1 = true
  · rw [if_pos hadd, if_pos (hwanted.mp hadd)]
    exact ⟨hroot.add _, symbolsAdd_perm _ _⟩
  · rw [if_neg hadd, if_neg (mt hwanted.mpr hadd)]
    exact ⟨hroot, List.Perm.refl _⟩

/-- A loop over the entries, and any more passes. -/
theorem loop_entries (htable : table.Holds strings) (more : ℕ)
    (entries : List CoffEntry) :
    ∀ s : CoffReader, (∀ e ∈ entries, e.Named strings) →
      SymbolsOrdered s.root →
      s.file.bytes.drop s.file.pos =
        entries.flatMap CoffEntry.bytes ++ rest →
      ∃ s' : CoffReader,
        loop table (entries.length + more) s = loop table more s' ∧
        s'.positions =
          s.positions ++ primaryPositions s.file.pos entries ∧
        s'.root.toList.Perm
          (entries.foldl (CoffEntry.addTo strings) s.root.toList) := by
  induction entries with
  | nil =>
      intro s _ _ _
      refine ⟨s, by simp, by simp [primaryPositions], List.Perm.refl _⟩
  | cons e entries ih =>
      intro s hnamed hordered hread
      rw [List.forall_mem_cons] at hnamed
      rw [List.flatMap_cons, List.append_assoc] at hread
      obtain ⟨hfile, hpositions, hroot, hperm⟩ := pass_entry htable hnamed.1
        hordered hread
      have hrest : (s.pass table).file.bytes.drop (s.pass table).file.pos =
          entries.flatMap CoffEntry.bytes ++ rest := by
        rw [hfile]
        exact CFile.drop_fread _ hread
      obtain ⟨s', hloop, hpositions', hperm'⟩ := ih (s.pass table) hnamed.2
        hroot hrest
      refine ⟨s', ?_, ?_, ?_⟩
      · rw [← hloop, List.length_cons, add_right_comm, loop]
      · rw [hpositions', hpositions, hfile, List.append_assoc,
          primaryPositions, e.length_bytes, CoffEntry.number, mul_add]
        rfl
      · rw [List.foldl_cons]
        exact hperm'.trans (foldl_addTo_perm strings entries hperm)

theorem length_positions (count : ℕ) :
    ∀ s : CoffReader, (loop table count s).positions.length =
      s.positions.length + count := by
  induction count with
  | zero =>
      intro s
      rfl
  | succ count ih =>
      intro s
      rw [loop, ih, pass]
      simp only [List.length_append, List.length_singleton]
      omega

end CoffReader

/-! ## The whole file -/

namespace CoffFile

variable {file : CoffFile}

theorem length_table (file : CoffFile) :
    file.table.length = 18 * (file.entries.map CoffEntry.number).sum := by
  rw [table]
  induction file.entries with
  | nil => rfl
  | cons e entries ih =>
      rw [List.flatMap_cons, List.length_append, ih, e.length_bytes,
        List.map_cons, List.sum_cons, CoffEntry.number]
      omega

theorem length_bytes (file : CoffFile) :
    file.bytes.length = file.front.length + file.table.length +
      (4 + file.strings.length + file.rest.length) := by
  simp only [bytes, List.length_append, length_bytes32]
  omega

/-- The header is read as it is in the file. -/
theorem WellFormed.coffHeader_eq (h : file.WellFormed) (buf : Buffer)
    (pos : ℕ) : CFile.coffHeader buf ⟨file.bytes, pos⟩ = file.header := by
  have hheaded := h.headed
  have hfill : ∀ i < 20, (buf.fill (((⟨file.bytes, pos⟩ : CFile).fseek
      0).fread 20).1) i = file.front.getD i 0 := by
    intro i hi
    have htake : (((⟨file.bytes, pos⟩ : CFile).fseek 0).fread 20).1 =
        file.bytes.take 20 := rfl
    rw [htake, Buffer.fill, bytes]
    exact getD_take_append hi (by omega) _ _
  rw [CFile.coffHeader, header, CoffHeader.ofBuffer, CoffHeader.ofBuffer]
  simp (disch := omega) only [Buffer.read16, Buffer.read32, hfill]

/-- The string table is read as it is in the file. -/
theorem WellFormed.stringTable_holds (h : file.WellFormed)
    (buf memory : Buffer) (pos : ℕ) :
    (CFile.stringTable ⟨file.bytes, pos⟩ file.header buf memory).Holds
      file.strings := by
  have hsmall := h.small
  rw [file.length_bytes] at hsmall
  have htable := file.length_table
  have hpos : (file.header.symptr + 18 * file.header.nsyms).toNat =
      file.front.length + file.table.length := by
    rw [BitVec.toNat_add, BitVec.toNat_mul, h.symptr, h.nsyms, htable]
    change (file.front.length + 18 % 2 ^ 32 *
      (file.entries.map CoffEntry.number).sum % 2 ^ 32) % 2 ^ 32 = _
    omega
  have hlength : (BitVec.ofNat 32 (4 + file.strings.length)).toNat =
      4 + file.strings.length := by
    rw [BitVec.toNat_ofNat]
    omega
  have hdrop : file.bytes.drop (file.front.length + file.table.length) =
      bytes32 (BitVec.ofNat 32 (4 + file.strings.length)) ++
        (file.strings ++ file.rest) := by
    rw [bytes, ← List.append_assoc file.front, ← List.length_append,
      List.drop_left]
  have hread : CFile.fread 4 ⟨file.bytes,
      file.front.length + file.table.length⟩ =
      (bytes32 (BitVec.ofNat 32 (4 + file.strings.length)),
        ⟨file.bytes, file.front.length + file.table.length + 4⟩) :=
    CFile.fread_append ⟨file.bytes, _⟩ hdrop
  have hrest : (CFile.fread (4 + file.strings.length) ⟨file.bytes,
      file.front.length + file.table.length + 4⟩).1 =
      (file.strings ++ file.rest).take (4 + file.strings.length) :=
    congrArg (List.take _) (CFile.drop_fread ⟨file.bytes, _⟩ hdrop)
  have hbuf : (buf.fill (bytes32
      (BitVec.ofNat 32 (4 + file.strings.length)))).read32 0 =
      BitVec.ofNat 32 (4 + file.strings.length) := append_bytes32 _
  rw [CFile.stringTable]
  simp only [CFile.fseek, hpos, hread, hbuf, hlength, hrest]
  constructor
  · intro i hi
    refine (if_neg (by omega)).trans ?_
    rw [Nat.add_sub_cancel_left]
    exact getD_take_append (by omega) hi _ _
  · have hheaded := h.headed
    rw [BitVec.toNat_add, hlength]
    change 4 + file.strings.length ≤ (4 + file.strings.length + 4) % 2 ^ 32
    rw [Nat.mod_eq_of_lt (by omega)]
    omega

end CoffFile

theorem length_primaryPositions (entries : List CoffEntry) :
    ∀ pos, (primaryPositions pos entries).length = entries.length := by
  induction entries with
  | nil =>
      intro pos
      rfl
  | cons e entries ih =>
      intro pos
      rw [primaryPositions, List.length_cons, ih, List.length_cons]

theorem sum_number (entries : List CoffEntry) :
    (entries.map CoffEntry.number).sum = entries.length ↔
      ∀ e ∈ entries, e.aux = [] := by
  have hle : ∀ entries : List CoffEntry,
      entries.length ≤ (entries.map CoffEntry.number).sum := by
    intro entries
    rw [← List.length_map CoffEntry.number]
    exact List.length_le_sum_of_one_le _ (by simp [CoffEntry.number])
  induction entries with
  | nil => simp
  | cons e entries ih =>
      have hrest := hle entries
      rw [List.forall_mem_cons]
      refine Iff.trans ?_ (and_congr_right' ih)
      rw [List.map_cons, List.sum_cons, List.length_cons, CoffEntry.number,
        ← List.length_eq_zero_iff]
      omega

namespace CoffFile

variable {file : CoffFile} {root : SymbolTree}

/-- The loop makes a pass for each entry, auxiliary ones included. -/
theorem WellFormed.length_positions (h : file.WellFormed)
    (header buf memory entry : Buffer) (pos : ℕ) (root : SymbolTree) :
    (CFile.coffSymbols header buf memory entry ⟨file.bytes, pos⟩
      root).positions.length = (file.entries.map CoffEntry.number).sum := by
  rw [CFile.coffSymbols]
  simp only [h.coffHeader_eq]
  rw [CoffReader.length_positions, h.nsyms]
  exact zero_add _

theorem readOnce_of_primaries (h : file.WellFormed)
    (hordered : SymbolsOrdered root) (haux : ∀ e ∈ file.entries, e.aux = []) :
    file.ReadOnce root := by
  intro header buf memory entry pos
  have hdrop : file.bytes.drop file.front.length =
      file.entries.flatMap CoffEntry.bytes ++
        (bytes32 (BitVec.ofNat 32 (4 + file.strings.length)) ++
          (file.strings ++ file.rest)) := List.drop_left
  have hpasses := sum_number file.entries |>.mpr haux
  rw [CFile.coffSymbols]
  simp only [h.coffHeader_eq, h.nsyms, h.symptr, hpasses]
  obtain ⟨s', hloop, hpositions, hperm⟩ := CoffReader.loop_entries
    (h.stringTable_holds buf memory pos) 0 file.entries
    ⟨⟨file.bytes, file.front.length⟩, entry, root, []⟩ h.named hordered hdrop
  rw [add_zero] at hloop
  change (CoffReader.loop _ _ ⟨⟨file.bytes, file.front.length⟩, entry, root,
    []⟩).positions = _ ∧ (CoffReader.loop _ _ ⟨⟨file.bytes,
      file.front.length⟩, entry, root, []⟩).root.toList.Perm _
  rw [hloop]
  exact ⟨hpositions, hperm⟩

/-- The entries of a symbol table are read once each exactly if it has no
auxiliary ones: for each of them one more entry is read, behind those of the
table. -/
theorem readOnce_iff (h : file.WellFormed) (hroot : TableReached root) :
    file.ReadOnce root ↔ ∀ e ∈ file.entries, e.aux = [] := by
  constructor
  · intro hread
    obtain ⟨hpositions, -⟩ := hread (fun _ => 0) (fun _ => 0) (fun _ => 0)
      (fun _ => 0) 0
    have hlength := h.length_positions (fun _ => 0) (fun _ => 0) (fun _ => 0)
      (fun _ => 0) 0 root
    rw [hpositions, length_primaryPositions] at hlength
    exact (sum_number file.entries).mp hlength.symm
  · exact readOnce_of_primaries h hroot.ordered

/-- The header, with an optional header of zeroes, of a file without
sections. -/
def sampleFront (nsyms : Byte) : List Byte :=
  [0x83, 0, 0, 0, 0, 0, 0, 0, 0, 0, 0, 48, 0, 0, 0, nsyms, 0, 28, 0, 2] ++
    List.replicate 28 0

/-- The symbol `_main`. -/
def mainEntry : CoffEntry where
  name := .inline [0x5f, 0x6d, 0x61, 0x69, 0x6e, 0, 0, 0] rfl (by decide)
  value := 0x8000
  scnum := 1
  type := 0
  sclass := C_EXT
  aux := []
  count := by decide
  width := by decide

/-- The function `_main`, whose size is in an auxiliary entry. -/
def mainFunction : CoffEntry where
  name := .inline [0x5f, 0x6d, 0x61, 0x69, 0x6e, 0, 0, 0] rfl (by decide)
  value := 0x8000
  scnum := 1
  type := 0x20
  sclass := C_EXT
  aux := [[0, 0, 0, 0, 0, 0, 0, 16, 0, 0, 0, 0, 0, 0, 0, 0, 0, 0]]
  count := by decide
  width := by decide

/-- A label whose name is in the string table. -/
def labelEntry (address : BitVec 32) : CoffEntry where
  name := .inTable 4
  value := address
  scnum := 1
  type := 0
  sclass := C_LABEL
  aux := []
  count := by decide
  width := by decide

/-- The section `.text`. -/
def textEntry : CoffEntry where
  name := .inline [0x2e, 0x74, 0x65, 0x78, 0x74, 0, 0, 0] rfl (by decide)
  value := 0x8000
  scnum := 1
  type := 0
  sclass := C_STAT
  aux := []
  count := by decide
  width := by decide

/-- The name `long_label`. -/
def labelName : List Byte :=
  [0x6c, 0x6f, 0x6e, 0x67, 0x5f, 0x6c, 0x61, 0x62, 0x65, 0x6c]

/-- The first label finds a symbol at its place, the second does not. -/
theorem readOnce_labels :
    let file : CoffFile := ⟨sampleFront 4,
      [textEntry, mainEntry, labelEntry 0x8000, labelEntry 0x8010],
      labelName ++ [0], []⟩
    let root := symbolsAdd ⟨0x9000, 0, [0x61]⟩ .nil
    file.ReadOnce root ∧
      file.entries.foldl (CoffEntry.addTo file.strings) root.toList =
        [⟨0x8010, 0, labelName⟩, ⟨0x8000, 0, [0x5f, 0x6d, 0x61, 0x69, 0x6e]⟩,
          ⟨0x9000, 0, [0x61]⟩] := by
  intro file root
  have hnamed : ∀ e ∈ file.entries, e.Named file.strings := by
    intro e he offset hoffset
    simp only [file, List.mem_cons, List.not_mem_nil, or_false] at he
    rcases he with rfl | rfl | rfl | rfl
    · cases hoffset
    · cases hoffset
    all_goals
      cases hoffset
      decide
  have hformed : file.WellFormed :=
    ⟨by decide, by decide, by decide, by decide +kernel, hnamed⟩
  exact ⟨(readOnce_iff hformed (.add _ .empty)).mpr (by decide), by decide⟩

/-- The string table is read as a second entry. -/
theorem readOnce_fails_mainFunction :
    (⟨sampleFront 2, [mainFunction], [], []⟩ : CoffFile).WellFormed ∧
      ¬CoffFile.ReadOnce ⟨sampleFront 2, [mainFunction], [], []⟩ .nil := by
  have hformed : (⟨sampleFront 2, [mainFunction], [], []⟩ :
      CoffFile).WellFormed :=
    ⟨by decide, by decide, by decide, by decide,
      by simp [CoffEntry.Named, mainFunction]⟩
  refine ⟨hformed, fun hread => ?_⟩
  obtain ⟨hpositions, -⟩ := hread (fun _ => 0) (fun _ => 0) (fun _ => 0)
    (fun _ => 0) 0
  have hlength := hformed.length_positions (fun _ => 0) (fun _ => 0)
    (fun _ => 0) (fun _ => 0) 0 .nil
  rw [hpositions] at hlength
  contradiction

end CoffFile

end BrickEmu
