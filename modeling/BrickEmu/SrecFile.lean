import BrickEmu.Srec

/-!
# Files of S-records

`srec_read` reads a file through calls of `fgets`, which deliver a line or as
much of it as fits into a buffer of 256 characters.  What is read is decoded
into one variable of type `srec_t`; the parameter `start` is not used.

A record of at most 254 characters reaches the decoder as a whole, if not
always with its line end, which is a blank line then.  A longer one is cut
off after 255 characters, an odd number that no record has.
-/

namespace BrickEmu

/-- What a call of `fgets` with room for `count` characters delivers. -/
def fgetsLine : ℕ → List Byte → List Byte
  | 0, _ => []
  | _ + 1, [] => []
  | count + 1, ch :: file =>
      if ch = 0x0a then [ch] else ch :: fgetsLine count file

/-- The buffers that the calls of `fgets` fill one after the other. -/
def fgetsAll : List Byte → List (List Byte)
  | [] => []
  | ch :: file =>
      let buf := fgetsLine 255 (ch :: file)
      buf :: fgetsAll ((ch :: file).drop buf.length)
termination_by file => file.length
decreasing_by
  have hpos : 0 < (fgetsLine 255 (ch :: file)).length := by
    rw [fgetsLine]
    split <;> simp
  simp only [List.length_drop, List.length_cons]
  omega

def isspace (ch : Byte) : Prop :=
  ch = 0x20 ∨ (0x09 ≤ ch.toNat ∧ ch.toNat ≤ 0x0d)

instance : DecidablePred isspace := fun _ =>
  inferInstanceAs (Decidable (_ ∨ _))

def isBlank (buf : List Byte) : Prop :=
  ∀ ch ∈ buf.takeWhile (· ≠ 0), isspace ch

instance : DecidablePred isBlank := fun _ =>
  inferInstanceAs (Decidable (∀ _ ∈ _, _))

/-- The variables of `srec_read`. -/
structure SrecReader where
  srec : Srec
  image : LoadMemory
  entry : ℕ

namespace SrecReader

/-- What is done with a decoded record. -/
def process (s : SrecReader) : SrecReader :=
  if s.srec.type = 1 then
    { s with
      image := s.image.store s.srec.addr
        ((List.range s.srec.count).map s.srec.data) }
  else if s.srec.type = 9 then { s with entry := s.srec.addr }
  else s

/-- The loop of `srec_read`, and the value returned.  A record with a wrong
checksum is processed like the others. -/
def loop : List (List Byte) → SrecReader → ℤ × SrecReader
  | [], s => (s.entry, s)
  | buf :: bufs, s =>
      if isBlank buf then loop bufs s
      else
        let (error, srec) := srecDecode s.srec buf
        if error ≠ .ok ∧ error ≠ .invalidCksum then
          (-1, { s with srec := srec })
        else loop bufs { s with srec := srec }.process

end SrecReader

/-- `srec_read`; the variable of type `srec_t` has no value at first. -/
def srecRead (file : List Byte) (srec : Srec) (memory : Memory) :
    ℤ × SrecReader :=
  SrecReader.loop (fgetsAll file) ⟨srec, ⟨memory, []⟩, 0⟩

/-! ## The calls of `fgets` -/

theorem fgetsLine_of_short (text rest : List Byte) (htext : 0x0a ∉ text) :
    ∀ count, text.length < count →
      fgetsLine count (text ++ 0x0a :: rest) = text ++ [0x0a] := by
  induction text with
  | nil =>
      intro count hcount
      obtain ⟨count, rfl⟩ := Nat.exists_eq_add_of_lt hcount
      simp [fgetsLine]
  | cons ch text ih =>
      intro count hcount
      rw [List.mem_cons, not_or] at htext
      match count, hcount with
      | count + 1, hcount =>
          rw [List.cons_append, fgetsLine, if_neg (Ne.symm htext.1),
            ih htext.2 count (by simpa using hcount), List.cons_append]

theorem fgetsLine_of_long (text : List Byte) (htext : 0x0a ∉ text) :
    ∀ {count} (rest : List Byte), count ≤ text.length →
      fgetsLine count (text ++ rest) = text.take count := by
  induction text with
  | nil =>
      intro count rest hcount
      obtain rfl := Nat.le_zero.mp hcount
      rfl
  | cons ch text ih =>
      intro count rest hcount
      rw [List.mem_cons, not_or] at htext
      match count, hcount with
      | 0, _ => rfl
      | count + 1, hcount =>
          rw [List.cons_append, fgetsLine, if_neg (Ne.symm htext.1),
            ih htext.2 rest (by simpa using hcount), List.take_succ_cons]

theorem fgetsLine_of_last (text : List Byte) (htext : 0x0a ∉ text) :
    ∀ {count}, text.length ≤ count → fgetsLine count text = text := by
  induction text with
  | nil =>
      intro count _
      cases count <;> rfl
  | cons ch text ih =>
      intro count hcount
      rw [List.mem_cons, not_or] at htext
      match count, hcount with
      | count + 1, hcount =>
          rw [fgetsLine, if_neg (Ne.symm htext.1),
            ih htext.2 (by simpa using hcount)]

theorem fgetsAll_of_ne_nil {file : List Byte} (h : file ≠ []) :
    fgetsAll file = fgetsLine 255 file ::
      fgetsAll (file.drop (fgetsLine 255 file).length) := by
  cases file with
  | nil => exact absurd rfl h
  | cons ch file => rw [fgetsAll]

/-- A line that fits into the buffer. -/
theorem fgetsAll_line {text : List Byte} (rest : List Byte)
    (htext : 0x0a ∉ text) (hshort : text.length ≤ 254) :
    fgetsAll (text ++ 0x0a :: rest) =
      (text ++ [0x0a]) :: fgetsAll rest := by
  have hbuf := fgetsLine_of_short text rest htext 255 (by omega)
  rw [fgetsAll_of_ne_nil (by simp), hbuf]
  simp

/-- A line that does not fit into the buffer. -/
theorem fgetsAll_long {text : List Byte} (rest : List Byte)
    (htext : 0x0a ∉ text) (hlong : 255 ≤ text.length) :
    fgetsAll (text ++ rest) =
      text.take 255 :: fgetsAll (text.drop 255 ++ rest) := by
  have hbuf := fgetsLine_of_long text htext rest hlong
  have hne : text ++ rest ≠ [] := by
    intro hnil
    rw [(List.append_eq_nil_iff.mp hnil).1] at hlong
    simp at hlong
  have htake : (text.take 255).length = 255 := by
    rw [List.length_take]
    omega
  rw [fgetsAll_of_ne_nil hne, hbuf, htake,
    List.drop_append_of_le_length hlong]

/-- The last line, without a line feed. -/
theorem fgetsAll_last {text : List Byte} (htext : 0x0a ∉ text)
    (hshort : text.length ≤ 255) (hne : text ≠ []) :
    fgetsAll text = [text] := by
  rw [fgetsAll_of_ne_nil hne, fgetsLine_of_last text htext hshort,
    List.drop_length, fgetsAll]

/-! ## Files of records -/

/-- A line without its line feed: white space, or a record that a carriage
return may follow. -/
inductive SrecLine where
  | blank (text : List Byte) (space : ∀ ch ∈ text, isspace ch ∧ ch ≠ 0x0a)
  | record (text : List Byte) (type addr : ℕ) (data : List Byte)
      (form : RecordForm text type addr data) (carriageReturn : Bool)

namespace SrecLine

def text : SrecLine → List Byte
  | blank text _ => text
  | record text _ _ _ _ carriageReturn =>
      text ++ if carriageReturn then [0x0d] else []

/-- The data of type 1 is written to its address. -/
def applyTo (memory : Memory) : SrecLine → Memory
  | blank _ _ => memory
  | record _ type addr data _ _ =>
      if type = 1 then storeBytes memory data addr else memory

/-- The record of type 9 has the entry address. -/
def entryAfter (entry : ℕ) : SrecLine → ℕ
  | blank _ _ => entry
  | record _ type addr _ _ _ => if type = 9 then addr else entry

/-- The data of type 1 is inside the memory. -/
def InMemory : SrecLine → Prop
  | blank _ _ => True
  | record _ type addr data _ _ => type = 1 → addr + data.length ≤ 0x10000

/-- A record has at most 254 characters. -/
def Short : SrecLine → Prop
  | blank _ _ => True
  | record text _ _ _ _ _ => text.length ≤ 254

end SrecLine

/-- A file of lines that end with a line feed, and what is behind the last
one. -/
structure SrecFile where
  lines : List SrecLine
  last : SrecLine
  inMemory : ∀ line ∈ lines ++ [last], line.InMemory

namespace SrecFile

def bytes (file : SrecFile) : List Byte :=
  file.lines.flatMap (fun line => line.text ++ [0x0a]) ++ file.last.text

/-- The memory with the data of the records of type 1 written one after the
other. -/
def image (file : SrecFile) (memory : Memory) : Memory :=
  (file.lines ++ [file.last]).foldl SrecLine.applyTo memory

/-- The address of the last record of type 9, or 0. -/
def entry (file : SrecFile) : ℕ :=
  (file.lines ++ [file.last]).foldl SrecLine.entryAfter 0

/-- `srec_read` returns the entry address and leaves the data in memory. -/
def Loads (file : SrecFile) (memory : Memory) : Prop :=
  ∀ srec, (srecRead file.bytes srec memory).1 = file.entry ∧
    (srecRead file.bytes srec memory).2.image.memory = file.image memory

end SrecFile

/-! ## The text of a record -/

theorem hexValue_plain {ch : Byte} (h : hexValue ch ≠ none) :
    ch ≠ 0 ∧ ch ≠ 0x0a ∧ ch ≠ 0x0d := by
  refine ⟨?_, ?_, ?_⟩
  all_goals
    rintro rfl
    exact h rfl

/-- The text of a record starts with a letter, has no line end and an even
number of characters. -/
theorem RecordShape.text_facts {text : List Byte} {type : ℕ}
    {address data : List Byte} {checksum : Byte}
    (h : RecordShape text type address data checksum) :
    ∃ rest, text = 0x53 :: rest ∧
      (∀ ch ∈ text, ch ≠ 0 ∧ ch ≠ 0x0a ∧ ch ≠ 0x0d) ∧
      text.length % 2 = 0 := by
  obtain ⟨⟨kind, digits, rfl, hkind, hbytes⟩, -, -⟩ := h
  refine ⟨kind :: digits, rfl, ?_, ?_⟩
  · intro ch hch
    rcases List.mem_cons.mp hch with rfl | hch
    · decide
    rcases List.mem_cons.mp hch with rfl | hch
    · exact hexValue_plain (by rw [hkind]; simp)
    · exact hexValue_plain (hexBytes_digits hbytes ch hch)
  · rw [List.length_cons, List.length_cons, hexBytes_length hbytes]
    omega

theorem RecordForm.text_facts {text : List Byte} {type addr : ℕ}
    {data : List Byte} (h : RecordForm text type addr data) :
    ∃ rest, text = 0x53 :: rest ∧
      (∀ ch ∈ text, ch ≠ 0 ∧ ch ≠ 0x0a ∧ ch ≠ 0x0d) ∧
      text.length % 2 = 0 := by
  obtain ⟨address, checksum, hshape, -⟩ := h
  exact hshape.text_facts

theorem RecordForm.not_mem {text : List Byte} {type addr : ℕ}
    {data : List Byte} (h : RecordForm text type addr data) :
    0x0a ∉ text := by
  obtain ⟨rest, -, hplain, -⟩ := h.text_facts
  exact fun hmem => (hplain 0x0a hmem).2.1 rfl

theorem RecordForm.recordText_append {text : List Byte} {type addr : ℕ}
    {data : List Byte} (h : RecordForm text type addr data)
    {ending : List Byte} (hending : recordText ending = []) :
    recordText (text ++ ending) = text := by
  obtain ⟨rest, -, hplain, -⟩ := h.text_facts
  exact BrickEmu.recordText_append hplain ending hending

theorem not_isBlank_of_letter (rest : List Byte) :
    ¬isBlank (0x53 :: rest) := by
  intro hblank
  have hspace : isspace 0x53 := hblank 0x53 (by simp)
  revert hspace
  decide

theorem RecordShape.not_isBlank {buf : List Byte} {type : ℕ}
    {address data : List Byte} {checksum : Byte}
    (h : RecordShape (recordText buf) type address data checksum) :
    ¬isBlank buf := by
  obtain ⟨rest, htext, -, -⟩ := h.text_facts
  cases buf with
  | nil => cases htext
  | cons ch buf =>
      rw [recordText, List.takeWhile_cons] at htext
      split at htext
      · obtain ⟨rfl, -⟩ := List.cons.inj htext
        exact not_isBlank_of_letter buf
      · cases htext

namespace SrecReader

variable {s : SrecReader} {bufs : List (List Byte)}

theorem loop_blank {buf : List Byte} (h : ∀ ch ∈ buf, isspace ch) :
    loop (buf :: bufs) s = loop bufs s := by
  have hblank : isBlank buf := by
    intro ch hch
    exact h ch (List.takeWhile_subset _ hch)
  rw [loop, if_pos hblank]

/-- A record is processed, whatever its checksum is. -/
theorem loop_shape {buf : List Byte} {type : ℕ} {address data : List Byte}
    {checksum : Byte}
    (h : RecordShape (recordText buf) type address data checksum) :
    loop (buf :: bufs) s =
      loop bufs { s with srec := srecOf s.srec type address data }.process := by
  rw [loop, if_neg h.not_isBlank, srecDecode_of_shape h]
  by_cases hgood : ChecksumGood address data checksum
  · simp only [if_pos hgood, ne_eq, not_true_eq_false, false_and, if_false]
  · simp only [if_neg hgood, ne_eq, not_true_eq_false, and_false, if_false]

/-- The effect of a record on the variables. -/
theorem process_srecOf (s : SrecReader) (type : ℕ)
    (address data : List Byte) :
    ({ s with srec := srecOf s.srec type address data }.process).image =
        (if type = 1 then s.image.store (bigEndian address) data
          else s.image) ∧
      ({ s with srec := srecOf s.srec type address data }.process).entry =
        if type = 9 then bigEndian address else s.entry := by
  have hbytes := (srecOf_holds s.srec type address data).bytes_eq
  have htype : (srecOf s.srec type address data).type = type := rfl
  rw [process]
  simp only [htype, hbytes]
  by_cases hone : type = 1
  · have hnine : type ≠ 9 := by omega
    rw [if_pos hone, if_pos hone, if_neg hnine]
    exact ⟨rfl, rfl⟩
  · rw [if_neg hone, if_neg hone]
    split
    · exact ⟨rfl, rfl⟩
    · exact ⟨rfl, rfl⟩

/-- One record in the buffer. -/
theorem loop_record {text : List Byte} {type addr : ℕ}
    {data : List Byte} (h : RecordForm text type addr data)
    (ending : List Byte) (hending : recordText ending = [])
    (bufs : List (List Byte)) (s : SrecReader) :
    ∃ s' : SrecReader, loop ((text ++ ending) :: bufs) s = loop bufs s' ∧
      s'.image.memory =
        (if type = 1 then storeBytes s.image.memory data addr
          else s.image.memory) ∧
      s'.entry = if type = 9 then addr else s.entry := by
  have htext := h.recordText_append hending
  obtain ⟨address, checksum, hshape, -, rfl⟩ := h
  rw [← htext] at hshape
  obtain ⟨himage, hentry⟩ := process_srecOf s type address data
  refine ⟨_, loop_shape hshape, ?_, hentry⟩
  rw [himage]
  split <;> rfl

/-- The first 255 characters of a longer record are not one. -/
theorem loop_cut {text : List Byte} {type addr : ℕ} {data : List Byte}
    (h : RecordForm text type addr data) (hlong : 255 ≤ text.length) :
    (loop (text.take 255 :: bufs) s).1 = -1 := by
  obtain ⟨rest, rfl, hplain, -⟩ := h.text_facts
  have hblank : ¬isBlank ((0x53 :: rest).take 255) :=
    not_isBlank_of_letter _
  have htext : recordText ((0x53 :: rest).take 255) =
      (0x53 :: rest).take 255 := by
    have hkept : ∀ ch ∈ (0x53 :: rest).take 255,
        ch ≠ 0 ∧ ch ≠ 0x0a ∧ ch ≠ 0x0d :=
      fun ch hch => hplain ch (List.mem_of_mem_take hch)
    have happend := recordText_append hkept [] rfl
    rwa [List.append_nil] at happend
  have hlength : ((0x53 :: rest).take 255).length = 255 := by
    rw [List.length_take]
    omega
  have hrejected : (srecDecode s.srec ((0x53 :: rest).take 255)).1 ≠ .ok ∧
      (srecDecode s.srec ((0x53 :: rest).take 255)).1 ≠ .invalidCksum := by
    by_contra haccepted
    rw [not_and_or, not_not, not_not] at haccepted
    obtain ⟨type, address, data, checksum, hshape⟩ := exists_shape haccepted
    rw [htext] at hshape
    obtain ⟨-, -, -, heven⟩ := hshape.text_facts
    rw [hlength] at heven
    cases heven
  rw [loop, if_neg hblank]
  simp only [if_pos hrejected]

/-- A blank line may fill several buffers. -/
theorem loop_blankLine (text rest : List Byte)
    (hspace : ∀ ch ∈ text, isspace ch ∧ ch ≠ 0x0a) :
    loop (fgetsAll (text ++ 0x0a :: rest)) s = loop (fgetsAll rest) s := by
  have hline : 0x0a ∉ text := fun hmem => (hspace _ hmem).2 rfl
  by_cases hshort : text.length ≤ 254
  · rw [fgetsAll_line rest hline hshort]
    refine loop_blank fun ch hch => ?_
    rcases List.mem_append.mp hch with hch | hch
    · exact (hspace ch hch).1
    · rw [List.mem_singleton.mp hch]
      decide
  · rw [fgetsAll_long _ hline (by omega),
      loop_blank fun ch hch => (hspace ch (List.mem_of_mem_take hch)).1]
    exact loop_blankLine (text.drop 255) rest
      fun ch hch => hspace ch (List.mem_of_mem_drop hch)
termination_by text.length
decreasing_by
  rw [List.length_drop]
  omega

theorem loop_blankLast (text : List Byte)
    (hspace : ∀ ch ∈ text, isspace ch ∧ ch ≠ 0x0a) :
    loop (fgetsAll text) s = (↑s.entry, s) := by
  have hline : 0x0a ∉ text := fun hmem => (hspace _ hmem).2 rfl
  by_cases hnil : text = []
  · rw [hnil, fgetsAll, loop]
  by_cases hshort : text.length ≤ 255
  · rw [fgetsAll_last hline hshort hnil,
      loop_blank fun ch hch => (hspace ch hch).1, loop]
  · have hlong := fgetsAll_long [] hline (by omega)
    rw [List.append_nil, List.append_nil] at hlong
    rw [hlong,
      loop_blank fun ch hch => (hspace ch (List.mem_of_mem_take hch)).1]
    exact loop_blankLast (text.drop 255)
      fun ch hch => hspace ch (List.mem_of_mem_drop hch)
termination_by text.length
decreasing_by
  rw [List.length_drop]
  omega

/-! ## The lines of a file -/

theorem loop_line (line : SrecLine) (hshort : line.Short) (rest : List Byte)
    (s : SrecReader) :
    ∃ s' : SrecReader,
      loop (fgetsAll (line.text ++ 0x0a :: rest)) s =
        loop (fgetsAll rest) s' ∧
      s'.image.memory = line.applyTo s.image.memory ∧
      s'.entry = line.entryAfter s.entry := by
  cases line with
  | blank text space =>
      exact ⟨s, loop_blankLine text rest space, rfl, rfl⟩
  | record text type addr data form carriageReturn =>
      have hplain := form.not_mem
      have hlength : text.length ≤ 254 := hshort
      cases carriageReturn with
      | false =>
          have hline := fgetsAll_line rest hplain hlength
          obtain ⟨s', hloop, heffect⟩ := loop_record form [0x0a] rfl
            (fgetsAll rest) s
          rw [← hline] at hloop
          rw [SrecLine.text, if_neg Bool.false_ne_true, List.append_nil]
          exact ⟨s', hloop, heffect⟩
      | true =>
          have hreturn : 0x0a ∉ text ++ [0x0d] := by
            rw [List.mem_append, not_or]
            exact ⟨hplain, by decide⟩
          have hall : (text ++ [0x0d]).length = text.length + 1 := by simp
          rw [SrecLine.text, if_pos rfl]
          by_cases hfits : text.length ≤ 253
          · have hline := fgetsAll_line rest hreturn (by omega)
            obtain ⟨s', hloop, heffect⟩ := loop_record form [0x0d, 0x0a] rfl
              (fgetsAll rest) s
            rw [List.append_assoc text [0x0d] [0x0a]] at hline
            rw [hline]
            exact ⟨s', hloop, heffect⟩
          · -- The line feed does not fit and is a blank line of its own.
            have hline := fgetsAll_long (0x0a :: rest) hreturn (by omega)
            have hempty : (0x0a : Byte) ∉ [] := by simp
            have hfeed := fgetsAll_line rest hempty (by simp)
            have hblank : ∀ ch ∈ [(0x0a : Byte)], isspace ch := by decide
            obtain ⟨s', hloop, heffect⟩ := loop_record form [0x0d] rfl
              ([0x0a] :: fgetsAll rest) s
            rw [List.take_of_length_le (by omega),
              List.drop_of_length_le (by omega), List.nil_append] at hline
            rw [List.nil_append, List.nil_append] at hfeed
            rw [loop_blank hblank] at hloop
            rw [hline, hfeed]
            exact ⟨s', hloop, heffect⟩

theorem loop_last (line : SrecLine) (hshort : line.Short)
    (s : SrecReader) :
    ∃ s' : SrecReader, loop (fgetsAll line.text) s = (↑s'.entry, s') ∧
      s'.image.memory = line.applyTo s.image.memory ∧
      s'.entry = line.entryAfter s.entry := by
  cases line with
  | blank text space => exact ⟨s, loop_blankLast text space, rfl, rfl⟩
  | record text type addr data form carriageReturn =>
      have hlength : text.length ≤ 254 := hshort
      obtain ⟨ending, hending, hempty, hall⟩ : ∃ ending : List Byte,
          (SrecLine.record text type addr data form carriageReturn).text =
            text ++ ending ∧ recordText ending = [] ∧
          0x0a ∉ ending ∧ ending.length ≤ 1 := by
        cases carriageReturn with
        | false => exact ⟨[], rfl, rfl, by decide, by simp⟩
        | true => exact ⟨[0x0d], rfl, rfl, by decide, by simp⟩
      have hline : 0x0a ∉ text ++ ending := by
        rw [List.mem_append, not_or]
        exact ⟨form.not_mem, hall.1⟩
      have hne : text ++ ending ≠ [] := by
        obtain ⟨rest, rfl, -, -⟩ := form.text_facts
        simp
      obtain ⟨s', hloop, heffect⟩ := loop_record form ending hempty [] s
      refine ⟨s', ?_, heffect⟩
      rw [hending, fgetsAll_last hline ?_ hne, hloop, loop]
      rw [List.length_append]
      omega

/-- A long record ends the loop. -/
theorem loop_long (line : SrecLine) (hlong : ¬line.Short) (rest : List Byte)
    (s : SrecReader) : (loop (fgetsAll (line.text ++ rest)) s).1 = -1 := by
  cases line with
  | blank text space => exact absurd trivial hlong
  | record text type addr data form carriageReturn =>
      have hlength : 255 ≤ text.length := by
        have hnot : ¬text.length ≤ 254 := hlong
        omega
      rw [SrecLine.text, List.append_assoc,
        fgetsAll_long _ form.not_mem hlength]
      exact loop_cut form hlength

theorem loop_lines (lines : List SrecLine) (rest : List Byte) :
    ∀ s : SrecReader, (∀ line ∈ lines, line.Short) →
    ∃ s' : SrecReader,
      loop (fgetsAll (lines.flatMap (fun line => line.text ++ [0x0a]) ++
        rest)) s = loop (fgetsAll rest) s' ∧
      s'.image.memory = lines.foldl SrecLine.applyTo s.image.memory ∧
      s'.entry = lines.foldl SrecLine.entryAfter s.entry := by
  induction lines with
  | nil =>
      intro s _
      exact ⟨s, rfl, rfl, rfl⟩
  | cons line lines ih =>
      intro s hshort
      rw [List.forall_mem_cons] at hshort
      obtain ⟨s', hloop, hmemory, hentry⟩ := loop_line line hshort.1
        (lines.flatMap (fun line => line.text ++ [0x0a]) ++ rest) s
      obtain ⟨s'', hloop', hmemory', hentry'⟩ := ih s' hshort.2
      refine ⟨s'', ?_, ?_, ?_⟩
      · rw [← hloop', ← hloop, List.flatMap_cons, List.append_assoc,
          List.append_assoc]
        rfl
      · rw [hmemory', hmemory, List.foldl_cons]
      · rw [hentry', hentry, List.foldl_cons]

/-- A long record after short lines ends the loop, too. -/
theorem loop_lines_long (lines : List SrecLine) (rest : List Byte) :
    ∀ s : SrecReader, (∃ line ∈ lines, ¬line.Short) →
      (loop (fgetsAll (lines.flatMap (fun line => line.text ++ [0x0a]) ++
        rest)) s).1 = -1 := by
  induction lines with
  | nil =>
      intro s hlong
      simp at hlong
  | cons line lines ih =>
      intro s hlong
      rw [List.flatMap_cons, List.append_assoc, List.append_assoc]
      by_cases hshort : line.Short
      · have hrest : ∃ line ∈ lines, ¬line.Short := by
          obtain ⟨long, hmem, hnot⟩ := hlong
          rcases List.mem_cons.mp hmem with rfl | hmem
          · exact absurd hshort hnot
          · exact ⟨long, hmem, hnot⟩
        obtain ⟨s', hloop, -⟩ := loop_line line hshort
          (lines.flatMap (fun line => line.text ++ [0x0a]) ++ rest) s
        rw [← ih s' hrest, ← hloop]
        rfl
      · exact loop_long line hshort _ s

end SrecReader

/-! ## The whole file -/

namespace SrecFile

theorem loads_of_short (file : SrecFile) (memory : Memory)
    (hshort : ∀ line ∈ file.lines ++ [file.last], line.Short) :
    file.Loads memory := by
  intro srec
  rw [List.forall_mem_append, List.forall_mem_singleton] at hshort
  obtain ⟨s', hloop, hmemory, hentry⟩ := SrecReader.loop_lines file.lines
    file.last.text ⟨srec, ⟨memory, []⟩, 0⟩ hshort.1
  obtain ⟨s'', hlast, hmemory', hentry'⟩ := SrecReader.loop_last file.last
    hshort.2 s'
  have hread : srecRead file.bytes srec memory = (↑s''.entry, s'') := by
    rw [srecRead, bytes, hloop, hlast]
  rw [hread, hmemory', hmemory, entry, image, List.foldl_append,
    List.foldl_append]
  refine ⟨?_, rfl⟩
  rw [hentry', hentry]
  rfl

theorem srecRead_of_long (file : SrecFile) (memory : Memory) (srec : Srec)
    (hlong : ∃ line ∈ file.lines ++ [file.last], ¬line.Short) :
    (srecRead file.bytes srec memory).1 = -1 := by
  rw [srecRead, bytes]
  by_cases hlines : ∃ line ∈ file.lines, ¬line.Short
  · exact SrecReader.loop_lines_long file.lines _ _ hlines
  · push Not at hlines
    obtain ⟨line, hmem, hnot⟩ := hlong
    rcases List.mem_append.mp hmem with hmem | hmem
    · exact absurd (hlines line hmem) hnot
    · obtain rfl := List.mem_singleton.mp hmem
      obtain ⟨s', hloop, -⟩ := SrecReader.loop_lines file.lines
        file.last.text ⟨srec, ⟨memory, []⟩, 0⟩ hlines
      have hlast := SrecReader.loop_long file.last hnot [] s'
      rw [List.append_nil] at hlast
      rw [hloop, hlast]

theorem not_loads_of_long (file : SrecFile) (memory : Memory)
    (hlong : ∃ line ∈ file.lines ++ [file.last], ¬line.Short) :
    ¬file.Loads memory := by
  intro hloads
  have hresult := (hloads ⟨0, 0, 0, fun _ => 0⟩).1
  rw [file.srecRead_of_long memory _ hlong] at hresult
  omega

end SrecFile

/-- For every file of blank lines and records with the data of type 1 inside
the memory: it is loaded, whatever was in the memory, exactly if none of its
records has more than 254 characters. -/
theorem srecFile_loads_iff (file : SrecFile) (memory : Memory) :
    file.Loads memory ↔
      ∀ line ∈ file.lines ++ [file.last], line.Short := by
  constructor
  · intro hloads
    by_contra hlong
    push Not at hlong
    exact file.not_loads_of_long memory hlong hloads
  · exact file.loads_of_short memory

theorem hexText_length (bytes : List Byte) :
    (hexText bytes).length = 2 * bytes.length := by
  induction bytes with
  | nil => rfl
  | cons byte bytes ih =>
      change (hexText bytes).length + 2 = _
      rw [ih, List.length_cons]
      omega

/-- A record of type 1 for 123 zeros at 0x8000: its count is 126 and it has
256 characters. -/
def longRecord : SrecLine :=
  .record (encodeRecord 1 2 0x8000 (List.replicate 123 0)) 1 0x8000
    (List.replicate 123 0)
    ⟨_, _, recordShape_encode 0x8000 _ rfl (by simp),
      checksumGood_checksumOf _ _, (bigEndian_addressBytes (by decide)).symm⟩
    false

def longRecordFile : SrecFile where
  lines := [longRecord]
  last := .blank [] (by simp)
  inMemory := by
    intro line hline
    rcases List.mem_cons.mp hline with rfl | hline
    · intro _
      simp
    · obtain rfl := List.mem_singleton.mp hline
      trivial

/-- A file with one valid record is rejected. -/
theorem srecFile_fails_longRecord : ¬longRecordFile.Loads fun _ => 0 := by
  refine longRecordFile.not_loads_of_long _
    ⟨longRecord, by simp [longRecordFile], ?_⟩
  have hlength : (encodeRecord 1 2 0x8000 (List.replicate 123 0)).length =
      256 := by
    simp only [encodeRecord, List.length_cons, hexText_length,
      List.length_append, addressBytes_length, List.length_replicate,
      List.length_nil]
  intro hshort
  have hle : (encodeRecord 1 2 0x8000 (List.replicate 123 0)).length ≤ 254 :=
    hshort
  omega

end BrickEmu
