import BrickEmu.HostFile

/-!
# S-records

`srec_decode` takes a line apart into the fields of a record.  The record is
what stands in front of the first line feed, carriage return or 0; all
positions that are read after the check of its length are inside of it.

A record is a type, an address and data.  The line for it has the number of
the bytes that follow, the bytes of the address, the data, and a checksum
that makes the last byte of the sum of all bytes 0xff.
-/

namespace BrickEmu

def SREC_DATA_SIZE : ℕ := 512

/-- The variable of type `srec_t`. -/
structure Srec where
  type : ℕ
  addr : ℕ
  count : ℕ
  data : ℕ → Byte

/-- The results of `srec_decode`. -/
inductive SrecResult where
  | ok
  | invalidHdr
  | invalidChar
  | invalidType
  | tooShort
  | tooLong
  | invalidLen
  | invalidCksum
  deriving DecidableEq

def hex2int : List ℤ :=
  [-1, -1, -1, -1, -1, -1, -1, -1, -1, -1, -1, -1, -1, -1, -1, -1,
    -1, -1, -1, -1, -1, -1, -1, -1, -1, -1, -1, -1, -1, -1, -1, -1,
    -1, -1, -1, -1, -1, -1, -1, -1, -1, -1, -1, -1, -1, -1, -1, -1,
    0, 1, 2, 3, 4, 5, 6, 7, 8, 9, -1, -1, -1, -1, -1, -1,
    -1, 10, 11, 12, 13, 14, 15, -1, -1, -1, -1, -1, -1, -1, -1, -1,
    -1, -1, -1, -1, -1, -1, -1, -1, -1, -1, -1, -1, -1, -1, -1, -1,
    -1, 10, 11, 12, 13, 14, 15, -1, -1, -1, -1, -1, -1, -1, -1, -1,
    -1, -1, -1, -1, -1, -1, -1, -1, -1, -1, -1, -1, -1, -1, -1, -1,
    -1, -1, -1, -1, -1, -1, -1, -1, -1, -1, -1, -1, -1, -1, -1, -1,
    -1, -1, -1, -1, -1, -1, -1, -1, -1, -1, -1, -1, -1, -1, -1, -1,
    -1, -1, -1, -1, -1, -1, -1, -1, -1, -1, -1, -1, -1, -1, -1, -1,
    -1, -1, -1, -1, -1, -1, -1, -1, -1, -1, -1, -1, -1, -1, -1, -1,
    -1, -1, -1, -1, -1, -1, -1, -1, -1, -1, -1, -1, -1, -1, -1, -1,
    -1, -1, -1, -1, -1, -1, -1, -1, -1, -1, -1, -1, -1, -1, -1, -1,
    -1, -1, -1, -1, -1, -1, -1, -1, -1, -1, -1, -1, -1, -1, -1, -1,
    -1, -1, -1, -1, -1, -1, -1, -1, -1, -1, -1, -1, -1, -1, -1, -1]

def ltab : List ℕ := [4, 4, 6, 8, 0, 4, 0, 8, 6, 4]

def hexDigit (ch : Byte) : ℤ :=
  hex2int.getD ch.toNat 0

/-- The macro `C1` -/
def C1 (line : List Byte) (pos : ℕ) : ℤ :=
  hexDigit (line.getD pos 0)

/-- The macro `C2`, for two digits. -/
def C2 (line : List Byte) (pos : ℕ) : ℕ :=
  (C1 line pos).toNat <<< 4 ||| (C1 line (pos + 1)).toNat

/-- The part of a line that is the record. -/
def recordText (line : List Byte) : List Byte :=
  line.takeWhile fun ch => ch ≠ 0 ∧ ch ≠ 0x0a ∧ ch ≠ 0x0d

/-- The loop over the bytes of the address: `addr` and `sum`. -/
def srecAddrLoop : ℕ → List Byte → ℕ → ℕ → ℕ × ℕ
  | 0, _, addr, sum => (addr, sum)
  | count + 1, line, addr, sum =>
      let value := C2 line 0
      srecAddrLoop count (line.drop 2) (addr <<< 8 ||| value) (sum + value)

/-- The loop over the bytes of the data, from index `i`: `data` and `sum`. -/
def srecDataLoop : ℕ → List Byte → ℕ → (ℕ → Byte) → ℕ → (ℕ → Byte) × ℕ
  | 0, _, _, data, sum => (data, sum)
  | count + 1, line, i, data, sum =>
      let value := C2 line 0
      srecDataLoop count (line.drop 2) (i + 1)
        (Function.update data i (BitVec.ofNat 8 value)) (sum + value)

/-- `srec_decode` behind the checks of the length. -/
def srecFields (srec : Srec) (line : List Byte) (count alen : ℕ) :
    SrecResult × Srec :=
  let len := line.length - 4
  let line := line.drop 4
  let (addr, sum) := srecAddrLoop (alen / 2) line 0 count
  let len := len - alen
  let line := line.drop alen
  let bytes := (len - 2) / 2
  let (data, sum) := srecDataLoop bytes line 0 srec.data sum
  let sum := sum + C2 line (2 * bytes)
  let srec :=
    { srec with addr := addr, data := data, count := count - alen / 2 - 1 }
  if sum &&& 0xff ≠ 0xff then (.invalidCksum, srec) else (.ok, srec)

section Decode

/-- `srec_decode`, with what is in the variable then. -/
def srecDecode (srec : Srec) (line : List Byte) : SrecResult × Srec :=
  let line := recordText line
  let len := line.length
  if len < 4 then (.invalidHdr, srec)
  else if line.getD 0 0 ≠ 0x53 then (.invalidHdr, srec)
  else if line.tail.any fun ch => hexDigit ch < 0 then (.invalidChar, srec)
  else
    let srec := { srec with type := (C1 line 1).toNat }
    let count := C2 line 2
    if 9 < srec.type then (.invalidType, srec)
    else
      let alen := ltab.getD srec.type 0
      if alen = 0 then (.invalidType, srec)
      else if len < alen + 6 then (.tooShort, srec)
      else if alen + SREC_DATA_SIZE + 2 < count then (.tooLong, srec)
      else if len ≠ count * 2 + 4 then (.invalidLen, srec)
      else srecFields srec line count alen

end Decode

/-! ## The format -/

/-- The value of a digit, in either case. -/
def hexValue (ch : Byte) : Option ℕ :=
  if 0x30 ≤ ch.toNat ∧ ch.toNat ≤ 0x39 then some (ch.toNat - 0x30)
  else if 0x41 ≤ ch.toNat ∧ ch.toNat ≤ 0x46 then some (ch.toNat - 0x41 + 10)
  else if 0x61 ≤ ch.toNat ∧ ch.toNat ≤ 0x66 then some (ch.toNat - 0x61 + 10)
  else none

/-- The bytes that an even number of digits stands for. -/
def hexBytes : List Byte → Option (List Byte)
  | [] => some []
  | [_] => none
  | high :: low :: digits => do
      let high ← hexValue high
      let low ← hexValue low
      let bytes ← hexBytes digits
      return BitVec.ofNat 8 (16 * high + low) :: bytes

/-- The bytes of the address of a record, by its type. -/
def addrWidth : ℕ → Option ℕ
  | 0 | 1 | 5 | 9 => some 2
  | 2 | 8 => some 3
  | 3 | 7 => some 4
  | _ => none

def byteSum (bytes : List Byte) : ℕ :=
  (bytes.map BitVec.toNat).sum

/-- The number with the given bytes, the most significant one first. -/
def bigEndian (bytes : List Byte) : ℕ :=
  bytes.foldl (fun value byte => 256 * value + byte.toNat) 0

/-- The text has the type, the bytes of the address and of the data and the
last byte of a record, in front of which it has their number. -/
structure RecordShape (text : List Byte) (type : ℕ)
    (address data : List Byte) (checksum : Byte) : Prop where
  digits : ∃ kind digits, text = 0x53 :: kind :: digits ∧
    hexValue kind = some type ∧
    hexBytes digits =
      some (BitVec.ofNat 8 (address.length + data.length + 1) ::
        (address ++ (data ++ [checksum])))
  width : addrWidth type = some address.length
  fits : address.length + data.length + 1 < 256

/-- The number of the bytes and the bytes have the right sum. -/
def ChecksumGood (address data : List Byte) (checksum : Byte) : Prop :=
  (address.length + data.length + 1 +
    byteSum (address ++ (data ++ [checksum]))) % 256 = 0xff

instance (address data : List Byte) (checksum : Byte) :
    Decidable (ChecksumGood address data checksum) :=
  inferInstanceAs (Decidable (_ = _))

/-- The text is a record with these fields. -/
def RecordForm (text : List Byte) (type addr : ℕ) (data : List Byte) :
    Prop :=
  ∃ address checksum, RecordShape text type address data checksum ∧
    ChecksumGood address data checksum ∧ addr = bigEndian address

/-! ## Digits -/

theorem hexDigit_eq (ch : Byte) :
    hexDigit ch = ((hexValue ch).map fun value => (value : ℤ)).getD (-1) := by
  revert ch
  decide +kernel

theorem hexDigit_of_some {ch : Byte} {value : ℕ}
    (h : hexValue ch = some value) : hexDigit ch = value := by
  rw [hexDigit_eq, h]
  rfl

theorem hexDigit_neg_iff (ch : Byte) :
    hexDigit ch < 0 ↔ hexValue ch = none := by
  rw [hexDigit_eq]
  cases hexValue ch with
  | none => simp
  | some value => simp

theorem hexValue_lt {ch : Byte} {value : ℕ}
    (h : hexValue ch = some value) : value < 16 := by
  rw [hexValue] at h
  split at h
  · cases h
    omega
  split at h
  · cases h
    omega
  split at h
  · cases h
    omega
  · cases h

theorem hexBytes_cons_eq_some {high low : Byte} {digits bytes : List Byte}
    (h : hexBytes (high :: low :: digits) = some bytes) :
    ∃ a b rest, hexValue high = some a ∧ hexValue low = some b ∧
      hexBytes digits = some rest ∧
      bytes = BitVec.ofNat 8 (16 * a + b) :: rest := by
  simp only [hexBytes, Option.bind_eq_bind, Option.bind_eq_some_iff,
    Option.pure_def, Option.some.injEq] at h
  obtain ⟨a, ha, b, hb, rest, hrest, rfl⟩ := h
  exact ⟨a, b, rest, ha, hb, hrest, rfl⟩

theorem hexBytes_length {digits bytes : List Byte}
    (h : hexBytes digits = some bytes) : digits.length = 2 * bytes.length := by
  induction digits using hexBytes.induct generalizing bytes with
  | case1 =>
      cases h
      rfl
  | case2 => cases h
  | case3 high low digits ih =>
      obtain ⟨a, b, rest, -, -, hrest, rfl⟩ := hexBytes_cons_eq_some h
      simp only [List.length_cons, ih hrest]
      omega

/-- Every even number of digits stands for bytes. -/
theorem exists_hexBytes {digits : List Byte}
    (hdigits : ∀ ch ∈ digits, hexValue ch ≠ none)
    (heven : digits.length % 2 = 0) :
    ∃ bytes, hexBytes digits = some bytes := by
  induction digits using hexBytes.induct with
  | case1 => exact ⟨[], rfl⟩
  | case2 => simp at heven
  | case3 high low digits ih =>
      obtain ⟨a, ha⟩ := Option.ne_none_iff_exists'.mp (hdigits high (by simp))
      obtain ⟨b, hb⟩ := Option.ne_none_iff_exists'.mp (hdigits low (by simp))
      obtain ⟨bytes, hbytes⟩ := ih
        (fun ch hch => hdigits ch (by simp [hch]))
        (by simp only [List.length_cons] at heven; omega)
      exact ⟨BitVec.ofNat 8 (16 * a + b) :: bytes, by
        simp [hexBytes, ha, hb, hbytes]⟩

theorem hexBytes_digits {digits bytes : List Byte}
    (h : hexBytes digits = some bytes) : ∀ ch ∈ digits, hexValue ch ≠ none := by
  induction digits using hexBytes.induct generalizing bytes with
  | case1 => simp
  | case2 => cases h
  | case3 high low digits ih =>
      obtain ⟨a, b, rest, ha, hb, hrest, -⟩ := hexBytes_cons_eq_some h
      intro ch hch
      rcases List.mem_cons.mp hch with rfl | hch
      · simp [ha]
      rcases List.mem_cons.mp hch with rfl | hch
      · simp [hb]
      · exact ih hrest ch hch

/-- The macro `C2` at the start of a text of digits, and what is behind. -/
theorem C2_of_hexBytes {line bytes : List Byte} {byte : Byte}
    (h : hexBytes line = some (byte :: bytes)) :
    C2 line 0 = byte.toNat ∧ hexBytes (line.drop 2) = some bytes := by
  match line, h with
  | high :: low :: digits, h =>
      obtain ⟨a, b, rest, ha, hb, hrest, heq⟩ := hexBytes_cons_eq_some h
      obtain ⟨rfl, rfl⟩ := List.cons.inj heq
      have halt := hexValue_lt ha
      have hblt := hexValue_lt hb
      have hor := Nat.two_pow_add_eq_or_of_lt (i := 4) hblt a
      have hhigh : C1 (high :: low :: digits) 0 = a := hexDigit_of_some ha
      have hlow : C1 (high :: low :: digits) (0 + 1) = b :=
        hexDigit_of_some hb
      constructor
      · rw [C2, hhigh, hlow, Int.toNat_natCast, Int.toNat_natCast,
          Nat.shiftLeft_eq, mul_comm, ← hor, BitVec.toNat_ofNat]
        omega
      · exact hrest

/-! ## The loops -/

theorem srecAddrLoop_eq (address : List Byte) :
    ∀ (addr sum : ℕ) {line rest : List Byte},
      hexBytes line = some (address ++ rest) →
      srecAddrLoop address.length line addr sum =
        (address.foldl (fun value byte => 256 * value + byte.toNat) addr,
          sum + byteSum address) ∧
      hexBytes (line.drop (2 * address.length)) = some rest := by
  induction address with
  | nil =>
      intro addr sum line rest h
      exact ⟨rfl, h⟩
  | cons byte address ih =>
      intro addr sum line rest h
      obtain ⟨hvalue, hdrop⟩ := C2_of_hexBytes h
      obtain ⟨hloop, hrest⟩ := ih _ _ hdrop
      constructor
      · have hor := Nat.two_pow_add_eq_or_of_lt (i := 8) byte.isLt addr
        rw [List.length_cons, srecAddrLoop, hvalue, hloop, Nat.shiftLeft_eq,
          mul_comm addr, ← hor]
        simp only [byteSum, List.map_cons, List.sum_cons, add_assoc]
        rfl
      · rw [List.length_cons, Nat.mul_succ, add_comm, ← List.drop_drop]
        exact hrest

theorem srecDataLoop_eq (bytes : List Byte) :
    ∀ (i : ℕ) (data : ℕ → Byte) (sum : ℕ) {line rest : List Byte},
      hexBytes line = some (bytes ++ rest) →
      srecDataLoop bytes.length line i data sum =
        (storeBytes data bytes i, sum + byteSum bytes) ∧
      hexBytes (line.drop (2 * bytes.length)) = some rest := by
  induction bytes with
  | nil =>
      intro i data sum line rest h
      exact ⟨rfl, h⟩
  | cons byte bytes ih =>
      intro i data sum line rest h
      obtain ⟨hvalue, hdrop⟩ := C2_of_hexBytes h
      obtain ⟨hloop, hrest⟩ := ih _ _ _ hdrop
      constructor
      · rw [List.length_cons, srecDataLoop, hvalue, hloop]
        simp only [byteSum, List.map_cons, List.sum_cons, add_assoc,
          BitVec.ofNat_toNat, BitVec.setWidth_eq, storeBytes]
      · rw [List.length_cons, Nat.mul_succ, add_comm, ← List.drop_drop]
        exact hrest

/-! ## The decoder on a record -/

/-- What `srec_decode` leaves in the variable for the parts of a record. -/
def srecOf (srec : Srec) (type : ℕ) (address data : List Byte) : Srec where
  type := type
  addr := bigEndian address
  count := data.length
  data := storeBytes srec.data data 0

theorem byteSum_append (bytes bytes' : List Byte) :
    byteSum (bytes ++ bytes') = byteSum bytes + byteSum bytes' := by
  simp [byteSum]

theorem C2_drop (line : List Byte) (n pos : ℕ) :
    C2 (line.drop n) pos = C2 line (n + pos) := by
  simp only [C2, C1, List.getD_eq_getElem?_getD, List.getElem?_drop,
    add_assoc]

theorem srecFields_eq (srec : Srec) (line : List Byte) {count : Byte}
    {address data : List Byte} {checksum : Byte}
    (hline : hexBytes (line.drop 2) =
      some (count :: (address ++ (data ++ [checksum]))))
    (hcount : count.toNat = address.length + data.length + 1) :
    srecFields srec line count.toNat (2 * address.length) =
      (if ChecksumGood address data checksum then .ok else .invalidCksum,
        srecOf srec srec.type address data) := by
  have hfour := (C2_of_hexBytes hline).2
  rw [List.drop_drop] at hfour
  obtain ⟨haddr, hdata⟩ := srecAddrLoop_eq address 0 count.toNat hfour
  obtain ⟨hloop, hlast⟩ := srecDataLoop_eq data 0 srec.data
    (count.toNat + byteSum address) hdata
  have hchecksum := (C2_of_hexBytes hlast).1
  rw [C2_drop, add_zero] at hchecksum
  have hlength := hexBytes_length hline
  simp only [List.length_drop, List.length_cons, List.length_append,
    List.length_nil] at hlength
  have hhalf : 2 * address.length / 2 = address.length := by omega
  have hbytes : (line.length - 4 - 2 * address.length - 2) / 2 =
      data.length := by omega
  have hrest : count.toNat - address.length - 1 = data.length := by omega
  have hsum : (count.toNat + byteSum address + byteSum data +
      checksum.toNat) &&& 0xff ≠ 0xff ↔
        ¬ChecksumGood address data checksum := by
    rw [show 0xff = 2 ^ 8 - 1 from rfl, Nat.and_two_pow_sub_one_eq_mod,
      ChecksumGood, byteSum_append, byteSum_append, hcount]
    simp only [byteSum, List.map_cons, List.map_nil, List.sum_cons,
      List.sum_nil, add_zero, add_assoc]
    norm_num
  simp only [srecFields, hhalf, hbytes, haddr, hloop, hchecksum, hrest, hsum]
  by_cases hgood : ChecksumGood address data checksum
  · rw [if_neg (not_not_intro hgood), if_pos hgood]
    rfl
  · rw [if_pos hgood, if_neg hgood]
    rfl

/-- The table of the widths of the addresses, in digits. -/
theorem ltab_eq_iff {type width : ℕ} (htype : type ≤ 9) :
    addrWidth type = some width ↔
      ltab.getD type 0 = 2 * width ∧ ltab.getD type 0 ≠ 0 := by
  interval_cases type <;> simp [addrWidth, ltab] <;> omega

theorem addrWidth_le {type width : ℕ} (h : addrWidth type = some width) :
    type ≤ 9 := by
  by_contra hlarge
  have hnone : addrWidth type = none := by
    rw [addrWidth.eq_def]
    split <;> first | omega | rfl
  rw [hnone] at h
  cases h

/-- A record is decoded into its fields, whether its checksum is good or
not. -/
theorem srecDecode_of_shape {srec : Srec} {line : List Byte} {type : ℕ}
    {address data : List Byte} {checksum : Byte}
    (h : RecordShape (recordText line) type address data checksum) :
    srecDecode srec line =
      (if ChecksumGood address data checksum then .ok else .invalidCksum,
        srecOf srec type address data) := by
  obtain ⟨⟨kind, digits, htext, hkind, hbytes⟩, hwidth, hfits⟩ := h
  have hcount : (BitVec.ofNat 8 (address.length + data.length + 1)).toNat =
      address.length + data.length + 1 := by
    rw [BitVec.toNat_ofNat]
    omega
  have hlength := hexBytes_length hbytes
  simp only [List.length_cons, List.length_append, List.length_nil] at hlength
  have htype := addrWidth_le hwidth
  obtain ⟨halen, hpos⟩ := (ltab_eq_iff htype).mp hwidth
  have hdrop : (recordText line).drop 2 = digits := by
    rw [htext]
    rfl
  have hlen : (recordText line).length =
      2 * (address.length + data.length + 1) + 4 := by
    rw [htext, List.length_cons, List.length_cons, hlength]
    omega
  have hfirst : (recordText line).getD 0 0 = 0x53 := by
    rw [htext]
    rfl
  have hdigits : ¬ ((recordText line).tail.any
      fun ch => hexDigit ch < 0) = true := by
    intro hany
    obtain ⟨ch, hch, hneg⟩ := List.any_eq_true.mp hany
    rw [decide_eq_true_eq, hexDigit_neg_iff] at hneg
    rw [htext, List.tail_cons, List.mem_cons] at hch
    rcases hch with rfl | hch
    · rw [hkind] at hneg
      cases hneg
    · exact hexBytes_digits hbytes ch hch hneg
  have hC1 : C1 (recordText line) 1 = type := by
    rw [htext]
    exact hexDigit_of_some hkind
  have hC2 : C2 (recordText line) 2 =
      address.length + data.length + 1 := by
    rw [← hdrop] at hbytes
    have hvalue := (C2_of_hexBytes hbytes).1
    rwa [C2_drop, hcount] at hvalue
  have hfields := srecFields_eq { srec with type := type } (recordText line)
    (by rw [hdrop]; exact hbytes) hcount
  rw [hcount] at hfields
  simp only [srecDecode, hC1, hC2, hlen, halen, hfirst, Int.toNat_natCast,
    SREC_DATA_SIZE]
  rw [if_neg (by omega), if_neg (by simp), if_neg hdigits, if_neg (by omega),
    if_neg (by omega), if_neg (by omega), if_neg (by omega),
    if_neg (by omega), hfields]
  rfl

/-- Whatever passes the checks in front of the fields has the shape of a
record. -/
theorem exists_shape {srec : Srec} {line : List Byte}
    (h : (srecDecode srec line).1 = .ok ∨
      (srecDecode srec line).1 = .invalidCksum) :
    ∃ type address data checksum,
      RecordShape (recordText line) type address data checksum := by
  simp only [srecDecode] at h
  split at h
  · simp at h
  next hlen =>
  split at h
  · simp at h
  next hfirst =>
  split at h
  · simp at h
  next hdigits =>
  split at h
  · simp at h
  next htype =>
  split at h
  · simp at h
  next halen =>
  split at h
  · simp at h
  next hshort =>
  split at h
  · simp at h
  next hlong =>
  split at h
  · simp at h
  next hcount =>
  clear h
  generalize recordText line = text at *
  obtain ⟨first, kind, digits, rfl⟩ :
      ∃ first kind digits, text = first :: kind :: digits := by
    match text with
    | [] => simp at hlen
    | [_] => simp at hlen
    | first :: kind :: digits => exact ⟨first, kind, digits, rfl⟩
  have hvalues : ∀ ch ∈ kind :: digits, hexValue ch ≠ none := by
    intro ch hch hnone
    exact hdigits (List.any_eq_true.mpr
      ⟨ch, hch, decide_eq_true ((hexDigit_neg_iff ch).mpr hnone)⟩)
  obtain ⟨type, hkind⟩ := Option.ne_none_iff_exists'.mp
    (hvalues kind (by simp))
  have hC1 : (C1 (first :: kind :: digits) 1).toNat = type := by
    change (hexDigit kind).toNat = type
    rw [hexDigit_of_some hkind, Int.toNat_natCast]
  rw [hC1] at htype halen hshort hlong
  simp only [List.length_cons, not_not] at hcount hshort
  have heven : digits.length % 2 = 0 := by omega
  obtain ⟨bytes, hbytes⟩ := exists_hexBytes
    (fun ch hch => hvalues ch (List.mem_cons_of_mem kind hch)) heven
  have hlength := hexBytes_length hbytes
  match bytes, hbytes, hlength with
  | [], _, hlength =>
      simp only [List.length_nil] at hlength
      omega
  | count :: rest, hbytes, hlength =>
      have hC2 : C2 (first :: kind :: digits) 2 = count.toNat :=
        (C2_drop _ 2 0).symm.trans (C2_of_hexBytes hbytes).1
      rw [hC2] at hcount
      have hwidth : addrWidth type = some (ltab.getD type 0 / 2) := by
        have heven : ltab.getD type 0 % 2 = 0 := by
          have hle : type ≤ 9 := by omega
          interval_cases type <;> rfl
        exact (ltab_eq_iff (by omega)).mpr ⟨by omega, halen⟩
      generalize hw : ltab.getD type 0 / 2 = width at hwidth
      simp only [List.length_cons] at hlength
      have hlt := count.isLt
      have hrest : rest.drop width ≠ [] := by
        rw [ne_eq, List.drop_eq_nil_iff]
        omega
      have htake : (rest.take width).length = width := by
        rw [List.length_take]
        omega
      have hmiddle : (rest.drop width).dropLast.length =
          rest.length - width - 1 := by
        rw [List.length_dropLast, List.length_drop]
      have hnumber : (rest.take width).length +
          (rest.drop width).dropLast.length + 1 = count.toNat := by
        omega
      refine ⟨type, rest.take width, (rest.drop width).dropLast,
        (rest.drop width).getLast hrest, ⟨kind, digits, ?_, hkind, ?_⟩, ?_, ?_⟩
      · rw [List.cons.injEq]
        exact ⟨not_not.mp hfirst, rfl⟩
      · rw [hnumber, BitVec.ofNat_toNat, BitVec.setWidth_eq, hbytes,
          List.dropLast_append_getLast hrest, List.take_append_drop]
      · rw [htake]
        exact hwidth
      · omega

/-- The parts of a record are determined by its text. -/
theorem RecordShape.unique {text : List Byte} {type type' : ℕ}
    {address address' data data' : List Byte} {checksum checksum' : Byte}
    (h : RecordShape text type address data checksum)
    (h' : RecordShape text type' address' data' checksum') :
    type = type' ∧ address = address' ∧ data = data' := by
  obtain ⟨⟨kind, digits, rfl, hkind, hbytes⟩, hwidth, -⟩ := h
  obtain ⟨⟨kind', digits', htext, hkind', hbytes'⟩, hwidth', -⟩ := h'
  obtain ⟨-, hrest⟩ := List.cons.inj htext
  obtain ⟨rfl, rfl⟩ := List.cons.inj hrest
  have htype : type = type' := Option.some.inj (hkind.symm.trans hkind')
  subst htype
  have hlength : address.length = address'.length :=
    Option.some.inj (hwidth.symm.trans hwidth')
  have hall := (List.cons.inj (Option.some.inj
    (hbytes.symm.trans hbytes'))).2
  obtain ⟨haddress, hdata⟩ := List.append_inj hall hlength
  exact ⟨rfl, haddress, (List.append_inj' hdata rfl).1⟩

/-! ## Encoding -/

def hexUpper (digit : ℕ) : Byte :=
  BitVec.ofNat 8 (if digit < 10 then 0x30 + digit else 0x41 + (digit - 10))

def hexText (bytes : List Byte) : List Byte :=
  bytes.flatMap fun byte =>
    [hexUpper (byte.toNat / 16), hexUpper (byte.toNat % 16)]

/-- The bytes of an address, the most significant one first. -/
def addressBytes : ℕ → ℕ → List Byte
  | 0, _ => []
  | width + 1, addr =>
      BitVec.ofNat 8 (addr / 256 ^ width) :: addressBytes width addr

def checksumOf (address data : List Byte) : Byte :=
  BitVec.ofNat 8 (0xff - (address.length + data.length + 1 +
    byteSum (address ++ data)) % 256)

/-- The standard encoding of a record. -/
def encodeRecord (type width addr : ℕ) (data : List Byte) : List Byte :=
  let address := addressBytes width addr
  0x53 :: hexUpper type ::
    hexText (BitVec.ofNat 8 (address.length + data.length + 1) ::
      (address ++ (data ++ [checksumOf address data])))

theorem hexUpper_facts : ∀ digit < 16,
    hexValue (hexUpper digit) = some digit ∧ hexUpper digit ≠ 0 ∧
      hexUpper digit ≠ 0x0a ∧ hexUpper digit ≠ 0x0d := by
  decide

theorem hexBytes_hexText (bytes : List Byte) :
    hexBytes (hexText bytes) = some bytes := by
  induction bytes with
  | nil => rfl
  | cons byte bytes ih =>
      have hlt := byte.isLt
      have hhigh := (hexUpper_facts (byte.toNat / 16) (by omega)).1
      have hlow := (hexUpper_facts (byte.toNat % 16) (by omega)).1
      have hbyte : BitVec.ofNat 8 (16 * (byte.toNat / 16) + byte.toNat % 16) =
          byte := by
        rw [Nat.div_add_mod, BitVec.ofNat_toNat, BitVec.setWidth_eq]
      change hexBytes (_ :: _ :: hexText bytes) = _
      simp [hexBytes, hhigh, hlow, ih, hbyte]

theorem addressBytes_length (width addr : ℕ) :
    (addressBytes width addr).length = width := by
  induction width with
  | zero => rfl
  | succ width ih => rw [addressBytes, List.length_cons, ih]

theorem foldl_addressBytes (width addr : ℕ) :
    ∀ value, (addressBytes width addr).foldl
        (fun value byte => 256 * value + byte.toNat) value =
      value * 256 ^ width + addr % 256 ^ width := by
  induction width with
  | zero =>
      intro value
      simp [addressBytes, Nat.mod_one]
  | succ width ih =>
      intro value
      have hbyte : (BitVec.ofNat 8 (addr / 256 ^ width)).toNat =
          addr / 256 ^ width % 256 := BitVec.toNat_ofNat _ _
      rw [addressBytes, List.foldl_cons, ih, hbyte, Nat.mod_pow_succ, pow_succ]
      ring

theorem bigEndian_addressBytes {width addr : ℕ} (h : addr < 256 ^ width) :
    bigEndian (addressBytes width addr) = addr := by
  rw [bigEndian, foldl_addressBytes, zero_mul, zero_add, Nat.mod_eq_of_lt h]

theorem checksumGood_checksumOf (address data : List Byte) :
    ChecksumGood address data (checksumOf address data) := by
  rw [ChecksumGood, ← List.append_assoc, byteSum_append, checksumOf]
  generalize address.length + data.length + 1 = number
  generalize byteSum (address ++ data) = sum
  simp only [byteSum, List.map_cons, List.map_nil, List.sum_cons,
    List.sum_nil, BitVec.toNat_ofNat]
  omega

theorem recordShape_encode {type width : ℕ} (addr : ℕ) (data : List Byte)
    (hwidth : addrWidth type = some width)
    (hfits : width + data.length ≤ 254) :
    RecordShape (encodeRecord type width addr data) type
      (addressBytes width addr) data
      (checksumOf (addressBytes width addr) data) where
  digits :=
    ⟨_, _, rfl,
      (hexUpper_facts type (by have := addrWidth_le hwidth; omega)).1,
      hexBytes_hexText _⟩
  width := by rw [addressBytes_length, hwidth]
  fits := by
    rw [addressBytes_length]
    omega

/-- A text without a line end or a 0 is in front of them. -/
theorem recordText_append {text : List Byte}
    (htext : ∀ ch ∈ text, ch ≠ 0 ∧ ch ≠ 0x0a ∧ ch ≠ 0x0d)
    (ending : List Byte) (hending : recordText ending = []) :
    recordText (text ++ ending) = text := by
  rw [recordText, List.takeWhile_append_of_pos
    fun ch hch => decide_eq_true (htext ch hch), ← recordText, hending,
    List.append_nil]

theorem recordText_encode {type width : ℕ} (addr : ℕ) (data : List Byte)
    (hwidth : addrWidth type = some width) (ending : List Byte)
    (hending : recordText ending = []) :
    recordText (encodeRecord type width addr data ++ ending) =
      encodeRecord type width addr data := by
  have htype := addrWidth_le hwidth
  refine recordText_append (fun ch hch => ?_) ending hending
  rcases List.mem_cons.mp hch with rfl | hch
  · decide
  rcases List.mem_cons.mp hch with rfl | hch
  · exact (hexUpper_facts type (by omega)).2
  · obtain ⟨byte, -, hbyte⟩ := List.mem_flatMap.mp hch
    have hlt := byte.isLt
    simp only [List.mem_cons, List.not_mem_nil, or_false] at hbyte
    rcases hbyte with rfl | rfl
    · exact (hexUpper_facts _ (by omega)).2
    · exact (hexUpper_facts _ (by omega)).2

/-! ## Soundness and completeness -/

/-- The variable has the fields of a record; `count` is the number of its
data bytes. -/
structure Srec.Holds (srec : Srec) (type addr : ℕ) (data : List Byte) :
    Prop where
  type_eq : srec.type = type
  addr_eq : srec.addr = addr
  count_eq : srec.count = data.length
  data_eq : ∀ i < data.length, srec.data i = data.getD i 0

theorem srecOf_holds (srec : Srec) (type : ℕ) (address data : List Byte) :
    (srecOf srec type address data).Holds type (bigEndian address) data where
  type_eq := rfl
  addr_eq := rfl
  count_eq := rfl
  data_eq := by
    intro i hi
    have hget := storeBytes_get data srec.data 0 hi
    rwa [zero_add] at hget

/-- The bytes that the fields say. -/
theorem Srec.Holds.bytes_eq {srec : Srec} {type addr : ℕ}
    {data : List Byte} (h : srec.Holds type addr data) :
    (List.range srec.count).map srec.data = data := by
  rw [h.count_eq]
  apply List.ext_getElem
  · simp
  · intro i hi hi'
    rw [List.getElem_map, List.getElem_range, h.data_eq i hi',
      List.getD_eq_getElem _ _ hi']

theorem srecDecode_of_form {line : List Byte} {type addr : ℕ}
    {data : List Byte} (srec : Srec)
    (h : RecordForm (recordText line) type addr data) :
    (srecDecode srec line).1 = .ok ∧
      (srecDecode srec line).2.Holds type addr data := by
  obtain ⟨address, checksum, hshape, hgood, rfl⟩ := h
  rw [srecDecode_of_shape hshape, if_pos hgood]
  exact ⟨rfl, srecOf_holds srec type address data⟩

theorem srecDecode_eq_ok_iff (srec : Srec) (line : List Byte) :
    (srecDecode srec line).1 = .ok ↔
      ∃ type addr data, RecordForm (recordText line) type addr data := by
  constructor
  · intro h
    obtain ⟨type, address, data, checksum, hshape⟩ := exists_shape (.inl h)
    rw [srecDecode_of_shape hshape] at h
    have hgood : ChecksumGood address data checksum := by
      by_contra hbad
      simp [if_neg hbad] at h
    exact ⟨type, _, data, address, checksum, hshape, hgood, rfl⟩
  · rintro ⟨type, addr, data, hform⟩
    exact (srecDecode_of_form srec hform).1

/-- For every line and whatever is in the variable: a line is accepted
exactly if the part in front of its first carriage return, line feed or 0 is
a record, the fields are then those of the record, `count` being the number
of its data bytes, and the standard encoding of a record is decoded to the
record. -/
theorem srecDecode_exact (srec : Srec) :
    (∀ line, (srecDecode srec line).1 = .ok ↔
      ∃ type addr data, RecordForm (recordText line) type addr data) ∧
    (∀ line type addr data, RecordForm (recordText line) type addr data →
      (srecDecode srec line).2.Holds type addr data) ∧
    (∀ type width addr data ending, addrWidth type = some width →
      addr < 256 ^ width → width + data.length ≤ 254 →
      recordText ending = [] →
      (srecDecode srec (encodeRecord type width addr data ++ ending)).1 =
          .ok ∧
        (srecDecode srec
          (encodeRecord type width addr data ++ ending)).2.Holds
            type addr data) := by
  refine ⟨srecDecode_eq_ok_iff srec,
    fun line type addr data h => (srecDecode_of_form srec h).2, ?_⟩
  intro type width addr data ending hwidth haddr hfits hending
  apply srecDecode_of_form
  rw [recordText_encode addr data hwidth ending hending]
  exact ⟨_, _, recordShape_encode addr data hwidth hfits,
    checksumGood_checksumOf _ _, (bigEndian_addressBytes haddr).symm⟩

/-- `S9030000FC` -/
def emptyRecord : List Byte :=
  [0x53, 0x39, 0x30, 0x33, 0x30, 0x30, 0x30, 0x30, 0x46, 0x43]

/-- The record has the count 3 for two bytes of the address and the checksum;
the variable gets 0, the number of its data bytes. -/
theorem srecDecode_count_ne_emptyRecord :
    RecordForm emptyRecord 9 0 [] ∧ hexBytes (emptyRecord.drop 2) =
        some [3, 0, 0, 0xfc] ∧
      (srecDecode ⟨0, 0, 0, fun _ => 0⟩ emptyRecord).1 = .ok ∧
      (srecDecode ⟨0, 0, 0, fun _ => 0⟩ emptyRecord).2.count ≠ 3 := by
  have htext : emptyRecord = encodeRecord 9 2 0 [] := by decide
  have hform : RecordForm emptyRecord 9 0 [] := by
    rw [htext]
    exact ⟨_, _, recordShape_encode 0 [] rfl (by decide),
      checksumGood_checksumOf _ _, rfl⟩
  have hrecord : recordText emptyRecord = emptyRecord := by decide
  have htaken : RecordForm (recordText emptyRecord) 9 0 [] := by
    rw [hrecord]
    exact hform
  have hdecoded := srecDecode_of_form ⟨0, 0, 0, fun _ => 0⟩ htaken
  refine ⟨hform, by decide, hdecoded.1, ?_⟩
  rw [hdecoded.2.count_eq]
  simp

end BrickEmu
