import BrickEmu.DebuggerCommands
import Mathlib.Tactic

/-!
# The bounds of the debugger's arrays

Which packets keep `db_handle_packet` inside `memory`, `memtype` and
`db_out_buffer`.  For every building block there is an equivalence between
the bounds of all accesses up to its end and the bounds of those before it.
-/

namespace BrickEmu

def DbAccess.InBounds : DbAccess → Prop
  | .memory i => 0 ≤ i ∧ i ≤ 0xff87
  | .memtype i => 0 ≤ i ∧ i ≤ 0xff87
  | .out i outLen => 0 ≤ i ∧ i < 2048 ∧ 0 ≤ outLen ∧ outLen ≤ 2048

def Monitor.InBounds (s : Monitor) : Prop :=
  ∀ access ∈ s.accesses, access.InBounds

/-- All accesses for the packet stay within their arrays. -/
def StaysInBounds (s : Session) (packet : List Byte) : Prop :=
  ({ s.toMonitor with accesses := [] }.dbAnswer packet).InBounds

namespace Monitor

/-- The output position as a natural number. -/
def At (n : ℕ) (s : Monitor) : Prop :=
  s.outLen = BitVec.ofNat 32 n

variable {s : Monitor} {n : ℕ}

theorem inBounds_log (access : DbAccess) (s : Monitor) :
    (s.log access).InBounds ↔ s.InBounds ∧ access.InBounds := by
  simp only [InBounds, log, List.mem_append, List.mem_singleton]
  constructor
  · intro hall
    exact ⟨fun a ha => hall a (Or.inl ha), hall access (Or.inr rfl)⟩
  · rintro ⟨hold, hnew⟩ a (ha | rfl)
    · exact hold a ha
    · exact hnew

theorem inBounds_storeOut (i : ℤ) (ch : Byte) (s : Monitor) :
    (s.storeOut i ch).InBounds ↔
      s.InBounds ∧ 0 ≤ i ∧ i < 2048 ∧
        0 ≤ s.outLen.toInt ∧ s.outLen.toInt ≤ 2048 := by
  rw [storeOut, inBounds_log]
  exact Iff.rfl

theorem inBounds_put (ch : Byte) (s : Monitor) :
    (s.put ch).InBounds ↔
      s.InBounds ∧ 0 ≤ s.outLen.toInt ∧ s.outLen.toInt < 2048 := by
  have hput : (s.put ch).InBounds ↔
      (s.storeOut s.outLen.toInt ch).InBounds := Iff.rfl
  rw [hput, inBounds_storeOut]
  constructor
  · rintro ⟨hs, hlow, hhigh, -, -⟩
    exact ⟨hs, hlow, hhigh⟩
  · rintro ⟨hs, hlow, hhigh⟩
    exact ⟨hs, hlow, hhigh, hlow, hhigh.le⟩

theorem At.toInt (hat : s.At n) (hn : n ≤ 2048) : s.outLen.toInt = n := by
  rw [hat, BitVec.toInt_ofNat']
  exact Int.bmod_eq_of_le (by omega) (by omega)

theorem at_of_nonneg (s : Monitor) (hlow : 0 ≤ s.outLen.toInt) :
    s.At s.outLen.toInt.toNat := by
  apply BitVec.eq_of_toInt_eq
  rw [BitVec.toInt_ofNat', Int.toNat_of_nonneg hlow]
  have hupper := @BitVec.toInt_lt 32 s.outLen
  exact (Int.bmod_eq_of_le (by omega) (by omega)).symm

theorem At.put (hat : s.At n) (ch : Byte) : (s.put ch).At (n + 1) := by
  have hlen : (s.put ch).outLen = s.outLen + 1 := rfl
  rw [At, hlen, hat]
  apply BitVec.eq_of_toNat_eq
  simp [BitVec.toNat_add, BitVec.toNat_ofNat]

theorem At.puts (text : List Byte) :
    ∀ {s : Monitor} {n : ℕ}, s.At n → (s.puts text).At (n + text.length) := by
  induction text with
  | nil =>
      intro s n hat
      exact hat
  | cons ch text ih =>
      intro s n hat
      have hrest := ih (hat.put ch)
      rw [List.length_cons, Nat.add_comm text.length 1, ← Nat.add_assoc]
      exact hrest

theorem At.inBounds_put (hat : s.At n) (hn : n < 2048) (ch : Byte) :
    (s.put ch).InBounds ↔ s.InBounds := by
  have hlen := hat.toInt hn.le
  rw [Monitor.inBounds_put, hlen]
  constructor
  · exact fun h => h.1
  · exact fun h => ⟨h, by omega, by omega⟩

theorem At.inBounds_puts (text : List Byte) :
    ∀ {s : Monitor} {n : ℕ}, s.At n → n + text.length ≤ 2048 →
      ((s.puts text).InBounds ↔ s.InBounds) := by
  induction text with
  | nil =>
      intro s n hat hn
      exact Iff.rfl
  | cons ch text ih =>
      intro s n hat hn
      rw [List.length_cons] at hn
      have hrest := ih (hat.put ch) (by omega)
      exact hrest.trans (hat.inBounds_put (by omega) ch)

@[simp] theorem storeText_outLen (text : List Byte) :
    ∀ (i : ℤ) (s : Monitor), (storeText text i s).outLen = s.outLen := by
  induction text with
  | nil =>
      intro i s
      rfl
  | cons ch text ih =>
      intro i s
      exact ih (i + 1) (s.storeOut i ch)

theorem inBounds_storeText (text : List Byte) :
    ∀ (i : ℤ) (s : Monitor),
      (storeText text i s).InBounds ↔
        s.InBounds ∧ (text ≠ [] → 0 ≤ i ∧ i + text.length ≤ 2048 ∧
          0 ≤ s.outLen.toInt ∧ s.outLen.toInt ≤ 2048) := by
  induction text with
  | nil =>
      intro i s
      simp [storeText]
  | cons ch text ih =>
      intro i s
      have hlen : (s.storeOut i ch).outLen = s.outLen := rfl
      rw [storeText, ih, inBounds_storeOut, hlen, List.length_cons]
      cases text with
      | nil =>
          simp only [ne_eq, not_true_eq_false, false_implies, and_true,
            reduceCtorEq, not_false_eq_true, true_implies, List.length_nil]
          constructor
          · rintro ⟨hs, h⟩
            exact ⟨hs, by omega⟩
          · rintro ⟨hs, h⟩
            exact ⟨hs, by omega⟩
      | cons ch' text =>
          simp only [ne_eq, reduceCtorEq, not_false_eq_true, true_implies,
            List.length_cons]
          push_cast
          constructor
          · rintro ⟨⟨hs, h⟩, h'⟩
            exact ⟨hs, by omega⟩
          · rintro ⟨hs, h⟩
            exact ⟨⟨hs, by omega⟩, by omega⟩

theorem inBounds_putText (text : List Byte) (size : BitVec 32)
    (s : Monitor) :
    (s.putText text size).InBounds ↔
      s.InBounds ∧ (text ≠ [] →
        0 ≤ s.outLen.toInt ∧ s.outLen.toInt + text.length ≤ 2048) := by
  have hput : (s.putText text size).InBounds ↔
      (storeText text s.outLen.toInt s).InBounds := Iff.rfl
  rw [hput, inBounds_storeText]
  constructor
  · rintro ⟨hs, h⟩
    exact ⟨hs, fun htext => by have := h htext; omega⟩
  · rintro ⟨hs, h⟩
    exact ⟨hs, fun htext => by have := h htext; omega⟩

@[simp] theorem loadMemory_outLen (count : ℕ) :
    ∀ (addr : ℤ) (s : Monitor), (loadMemory addr count s).outLen = s.outLen := by
  induction count with
  | zero =>
      intro addr s
      rfl
  | succ count ih =>
      intro addr s
      exact ih (addr + 1) _

theorem inBounds_loadMemory (count : ℕ) :
    ∀ (addr : ℤ) (s : Monitor),
      (loadMemory addr count s).InBounds ↔
        s.InBounds ∧ (count ≠ 0 → 0 ≤ addr ∧ addr + count ≤ 0xff88) := by
  induction count with
  | zero =>
      intro addr s
      simp [loadMemory]
  | succ count ih =>
      intro addr s
      rw [loadMemory, ih, inBounds_log, DbAccess.InBounds]
      push_cast
      constructor
      · rintro ⟨⟨hs, h⟩, h'⟩
        exact ⟨hs, by omega⟩
      · rintro ⟨hs, h⟩
        exact ⟨⟨hs, by omega⟩, by omega⟩

theorem storeMemory_outLen (bytes : List Byte) :
    ∀ (addr : ℤ) (s : Monitor), (storeMemory addr bytes s).outLen = s.outLen := by
  induction bytes with
  | nil =>
      intro addr s
      rfl
  | cons val bytes ih =>
      intro addr s
      exact ih (addr + 1) _

theorem inBounds_storeMemory (bytes : List Byte) :
    ∀ (addr : ℤ) (s : Monitor),
      (storeMemory addr bytes s).InBounds ↔
        s.InBounds ∧
          (bytes.length ≠ 0 → 0 ≤ addr ∧ addr + bytes.length ≤ 0xff88) := by
  induction bytes with
  | nil =>
      intro addr s
      simp [storeMemory]
  | cons val bytes ih =>
      intro addr s
      have hsame : (s.onMachine fun m => m.poke addr.toNat val).InBounds ↔
          s.InBounds := Iff.rfl
      rw [storeMemory, ih, inBounds_log, hsame, DbAccess.InBounds,
        List.length_cons]
      push_cast
      constructor
      · rintro ⟨⟨hs, h⟩, h'⟩
        exact ⟨hs, by omega⟩
      · rintro ⟨hs, h⟩
        exact ⟨⟨hs, by omega⟩, by omega⟩

theorem changeTraps_outLen (change : Byte → Byte) (count : ℕ) :
    ∀ (i : ℤ) (s : Monitor), (changeTraps change count i s).outLen = s.outLen := by
  induction count with
  | zero =>
      intro i s
      rfl
  | succ count ih =>
      intro i s
      exact ih (i + 1) _

theorem inBounds_changeTraps (change : Byte → Byte) (count : ℕ) :
    ∀ (i : ℤ) (s : Monitor), 0 ≤ i → i + count ≤ 0xff88 →
      ((changeTraps change count i s).InBounds ↔ s.InBounds) := by
  induction count with
  | zero =>
      intro i s hlow hhigh
      exact Iff.rfl
  | succ count ih =>
      intro i s hlow hhigh
      push_cast at hhigh
      have hsame : (s.onMachine fun m =>
          m.setMemtype i.toNat (change (m.memtype i.toNat))).InBounds ↔
          s.InBounds := Iff.rfl
      rw [changeTraps, ih _ _ (by omega) (by omega), inBounds_log, hsame]
      constructor
      · exact fun h => h.1
      · exact fun h => ⟨h, by omega, by omega⟩

/-! ## The end of the reply -/

theorem inBounds_dbSendPacket (s : Monitor) :
    s.dbSendPacket.InBounds ↔ s.InBounds := by
  rw [dbSendPacket]
  split <;> exact Iff.rfl

/-- The checksum needs three more bytes. -/
theorem inBounds_reply (start : BitVec 32) (s : Monitor) :
    (s.reply start).InBounds ↔
      s.InBounds ∧ 0 ≤ s.outLen.toInt ∧ s.outLen.toInt ≤ 2045 := by
  rw [reply, inBounds_dbSendPacket, dbChecksumPacket]
  constructor
  · intro hall
    have htwo := (inBounds_put _ _).mp hall
    have hone := (inBounds_put _ _).mp htwo.1
    have hzero := (inBounds_put _ _).mp hone.1
    have hat := at_of_nonneg s hzero.2.1
    have hlen := (hat.put HASH).toInt (by omega)
    have hlen' := ((hat.put HASH).put
      (hexchars.getD ((s.outBytes start.toInt s.outLen.toInt).sum >>> 4).toNat
        0)).toInt (by omega)
    exact ⟨hzero.1, hzero.2.1, by omega⟩
  · rintro ⟨hs, hlow, hhigh⟩
    have hat := at_of_nonneg s hlow
    rw [((hat.put _).put _).inBounds_put (by omega),
      (hat.put _).inBounds_put (by omega), hat.inBounds_put (by omega)]
    exact hs

theorem At.inBounds_reply (hat : s.At n) (hn : n ≤ 2045)
    (start : BitVec 32) : (s.reply start).InBounds ↔ s.InBounds := by
  have hlen := hat.toInt (by omega)
  rw [Monitor.inBounds_reply, hlen]
  constructor
  · exact fun h => h.1
  · exact fun h => ⟨h, by omega, by omega⟩

/-- A reply of a fixed text. -/
theorem At.inBounds_text (hat : s.At n) (text : List Byte)
    (hn : n + text.length ≤ 2045) (start : BitVec 32) :
    ((s.puts text).reply start).InBounds ↔ s.InBounds := by
  rw [(At.puts text hat).inBounds_reply hn, At.inBounds_puts text hat (by omega)]

end Monitor

theorem mem2hex_length (bytes : List Byte) :
    (mem2hex bytes).length = 2 * bytes.length := by
  induction bytes with
  | nil => rfl
  | cons ch bytes ih =>
      have hcons : mem2hex (ch :: bytes) = hexPair ch ++ mem2hex bytes := rfl
      rw [hcons, List.length_append, ih, hexPair, List.length_cons]
      simp only [List.length_cons, List.length_nil]
      omega

theorem mem2hex_ne_nil (bytes : List Byte) :
    mem2hex bytes ≠ [] ↔ bytes.length ≠ 0 := by
  rw [← List.length_pos_iff, mem2hex_length]
  omega

theorem unhex_length (count : ℕ) :
    ∀ buf : List Byte, (unhex count buf).length = count := by
  induction count with
  | zero =>
      intro buf
      rfl
  | succ count ih =>
      intro buf
      rw [unhex, List.length_cons, ih]

theorem hex2mem_length (buf : List Byte) (count : ℕ) :
    (hex2mem buf count).length = count := by
  rw [hex2mem]
  split <;> exact unhex_length count _

/-! ## The commands with a length -/

/-- A range whose bytes, written from `n` on, leave neither `memory` nor
`db_out_buffer`.  A length of 0 or below moves only `db_out_len`. -/
def RangeFits (n : ℕ) (addr length : BitVec 32) : Prop :=
  (0 < length.toInt →
    addr.toInt + length.toInt ≤ 0xff88 ∧ n + 2 * length.toInt ≤ 2045) ∧
  (length.toInt ≤ 0 →
    0 ≤ (BitVec.ofNat 32 n + 2 * length).toInt ∧
      (BitVec.ofNat 32 n + 2 * length).toInt ≤ 2045)

def ReadFits (n : ℕ) (packet : List Byte) : Prop :=
  ∀ addr length rest, parseRange packet = some (addr, length, rest) →
    rangeAllowed addr length → RangeFits n addr length

def WriteFits (packet : List Byte) : Prop :=
  ∀ addr length rest, parseWrite packet = some (addr, length, rest) →
    rangeAllowed addr length →
      0 < length.toInt → addr.toInt + length.toInt ≤ 0xff88

/-- `P` falls through into `m` with `OK` before the data. -/
def RegisterFits (n : ℕ) (packet : List Byte) : Prop :=
  ∀ addr rest, parseRegister packet = some (addr, rest) →
    ReadFits (n + 2) rest

namespace Monitor

variable {s : Monitor} {n : ℕ}

/-- A length above 0 keeps its doubled value unless the text has left the
buffer already. -/
theorem toInt_outLen_add {length : BitVec 32} (hlength : 0 < length.toInt)
    (hn : n + 2 * length.toInt ≤ 2048) :
    (BitVec.ofNat 32 n + 2 * length).toInt = n + 2 * length.toInt := by
  rw [BitVec.toInt_add, BitVec.toInt_mul, BitVec.toInt_ofNat']
  have htwo : (2 : BitVec 32).toInt = 2 := rfl
  have hfirst : ((n : ℤ)).bmod (2 ^ 32) = n :=
    Int.bmod_eq_of_le (by omega) (by omega)
  have hsecond : (2 * length.toInt).bmod (2 ^ 32) = 2 * length.toInt :=
    Int.bmod_eq_of_le (by omega) (by omega)
  rw [htwo, hfirst, hsecond]
  exact Int.bmod_eq_of_le (by omega) (by omega)

theorem At.inBounds_readRange (hat : s.At n) (hn : n ≤ 1000)
    {addr length : BitVec 32} (hallowed : rangeAllowed addr length)
    (bytes : List Byte) (hbytes : bytes.length = length.toInt.toNat)
    (start : BitVec 32) :
    (((loadMemory addr.toInt length.toInt.toNat s).putText (mem2hex bytes)
      (2 * length)).reply start).InBounds ↔
      s.InBounds ∧ RangeFits n addr length := by
  have hlen := hat.toInt (by omega)
  have hsize : ((loadMemory addr.toInt length.toInt.toNat s).putText
      (mem2hex bytes) (2 * length)).outLen =
      BitVec.ofNat 32 n + 2 * length := by
    have hgrow : ((loadMemory addr.toInt length.toInt.toNat s).putText
        (mem2hex bytes) (2 * length)).outLen =
        (loadMemory addr.toInt length.toInt.toNat s).outLen + 2 * length :=
      rfl
    rw [hgrow, loadMemory_outLen, hat]
  have hnonneg := hallowed.1
  rw [Monitor.inBounds_reply, hsize, inBounds_putText, inBounds_loadMemory,
    loadMemory_outLen, hlen, mem2hex_ne_nil, mem2hex_length, hbytes,
    RangeFits]
  rcases lt_or_ge 0 length.toInt with hpos | hneg
  · -- the text leaves the buffer before its doubled length wraps
    constructor
    · rintro ⟨⟨⟨hs, hload⟩, hstore⟩, hlow, hhigh⟩
      have hload' := hload (by omega)
      have hstore' := hstore (by omega)
      rw [toInt_outLen_add hpos (by omega)] at hhigh
      exact ⟨hs, fun _ => ⟨by omega, hhigh⟩, fun h => absurd h (by omega)⟩
    · rintro ⟨hs, hfits, -⟩
      obtain ⟨hmemory, hout⟩ := hfits hpos
      rw [toInt_outLen_add hpos (by omega)]
      exact ⟨⟨⟨hs, fun _ => ⟨hnonneg, by omega⟩⟩, fun _ => by omega⟩,
        by omega, hout⟩
  · constructor
    · rintro ⟨⟨⟨hs, -⟩, -⟩, hlow, hhigh⟩
      exact ⟨hs, fun h => absurd h (by omega), fun _ => ⟨hlow, hhigh⟩⟩
    · rintro ⟨hs, -, hfits⟩
      obtain ⟨hlow, hhigh⟩ := hfits hneg
      exact ⟨⟨⟨hs, fun h => absurd h (by omega)⟩,
        fun h => absurd h (by omega)⟩, hlow, hhigh⟩

theorem At.inBounds_readMemory (hat : s.At n) (hn : n ≤ 1000)
    (packet : List Byte) (start : BitVec 32) :
    ((s.readMemory packet).reply start).InBounds ↔
      s.InBounds ∧ ReadFits n packet := by
  rw [readMemory]
  cases hparse : parseRange packet with
  | none =>
      have hfits : ReadFits n packet := by
        intro addr length rest hsome
        rw [hparse] at hsome
        cases hsome
      simp only
      rw [hat.inBounds_text E01 (by simp [E01]; omega)]
      exact ⟨fun h => ⟨h, hfits⟩, fun h => h.1⟩
  | some range =>
      obtain ⟨addr, length, rest⟩ := range
      simp only
      have hread : ReadFits n packet ↔
          (rangeAllowed addr length → RangeFits n addr length) := by
        constructor
        · exact fun h => h addr length rest hparse
        · intro h addr' length' rest' hsome
          rw [hparse] at hsome
          cases hsome
          exact h
      rw [hread]
      split
      case isTrue hallowed =>
        rw [hat.inBounds_readRange hn hallowed _ (by simp)]
        exact ⟨fun h => ⟨h.1, fun _ => h.2⟩, fun h => ⟨h.1, h.2 hallowed⟩⟩
      case isFalse hnot =>
        rw [hat.inBounds_text E03 (by simp [E03]; omega)]
        exact ⟨fun h => ⟨h, fun h => absurd h hnot⟩, fun h => h.1⟩

theorem At.inBounds_writeRegister (hat : s.At n) (hn : n ≤ 900)
    (packet : List Byte) (start : BitVec 32) :
    ((s.writeRegister packet).reply start).InBounds ↔
      s.InBounds ∧ RegisterFits n packet := by
  rw [writeRegister]
  cases hparse : parseRegister packet with
  | none =>
      have hfits : RegisterFits n packet := by
        intro addr rest hsome
        rw [hparse] at hsome
        cases hsome
      simp only
      rw [hat.inBounds_text E01 (by simp [E01]; omega)]
      exact ⟨fun h => ⟨h, hfits⟩, fun h => h.1⟩
  | some register =>
      obtain ⟨addr, rest⟩ := register
      have hset : (s.onMachine (setRegister addr (hex2mem rest 4))).At n := hat
      have hok : ((s.onMachine (setRegister addr (hex2mem rest 4))).puts
          OK).At (n + 2) := At.puts OK hset
      have hsame : (s.onMachine
          (setRegister addr (hex2mem rest 4))).InBounds ↔ s.InBounds := Iff.rfl
      have hread : RegisterFits n packet ↔ ReadFits (n + 2) rest := by
        constructor
        · exact fun h => h addr rest hparse
        · intro h addr' rest' hsome
          rw [hparse] at hsome
          cases hsome
          exact h
      simp only
      rw [hok.inBounds_readMemory (by omega),
        At.inBounds_puts OK hset (by simp [OK]; omega), hsame, hread]

theorem At.inBounds_writeMemory (hat : s.At n) (hn : n ≤ 1000)
    (packet : List Byte) (start : BitVec 32) :
    ((s.writeMemory packet).reply start).InBounds ↔
      s.InBounds ∧ WriteFits packet := by
  rw [writeMemory]
  cases hparse : parseWrite packet with
  | none =>
      have hfits : WriteFits packet := by
        intro addr length rest hsome
        rw [hparse] at hsome
        cases hsome
      simp only
      rw [hat.inBounds_text E02 (by simp [E02]; omega)]
      exact ⟨fun h => ⟨h, hfits⟩, fun h => h.1⟩
  | some range =>
      obtain ⟨addr, length, rest⟩ := range
      simp only
      have hwrite : WriteFits packet ↔
          (rangeAllowed addr length → 0 < length.toInt →
            addr.toInt + length.toInt ≤ 0xff88) := by
        constructor
        · exact fun h => h addr length rest hparse
        · intro h addr' length' rest' hsome
          rw [hparse] at hsome
          cases hsome
          exact h
      rw [hwrite]
      split
      case isTrue hallowed =>
        have hstore : (storeMemory addr.toInt
            (hex2mem rest length.toInt.toNat) s).At n :=
          (storeMemory_outLen _ _ _).trans hat
        have hnonneg := hallowed.1
        rw [hstore.inBounds_text OK (by simp [OK]; omega),
          inBounds_storeMemory, hex2mem_length]
        constructor
        · rintro ⟨hs, h⟩
          exact ⟨hs, fun _ hpos => by have := h (by omega); omega⟩
        · rintro ⟨hs, h⟩
          exact ⟨hs, fun hne => by
            have := h hallowed (by omega)
            omega⟩
      case isFalse hnot =>
        rw [hat.inBounds_text E03 (by simp [E03]; omega)]
        exact ⟨fun h => ⟨h, fun h => absurd h hnot⟩, fun h => h.1⟩

/-- The loop over the trap bits ends where the wrapped sum does, so it
needs no further condition. -/
theorem At.inBounds_traps (hat : s.At n) (hn : n ≤ 1000)
    (change : Byte → Byte → Byte) (packet : List Byte)
    (start : BitVec 32) :
    ((s.traps change packet).reply start).InBounds ↔ s.InBounds := by
  rw [traps]
  cases hparse : parseTraps packet with
  | none => exact hat.inBounds_text E01 (by simp [E01]; omega) start
  | some range =>
      obtain ⟨type, addr, length⟩ := range
      simp only
      split
      case isTrue hallowed =>
        have hloop : (changeTraps (change (bptype2mask.getD type.toNat 0))
            ((addr + length).toInt - addr.toInt).toNat addr.toInt s).At n :=
          (changeTraps_outLen _ _ _ _).trans hat
        obtain ⟨⟨hnonneg, hsum⟩, -⟩ := hallowed
        rw [hloop.inBounds_text OK (by simp [OK]; omega)]
        rcases le_or_gt addr.toInt (addr + length).toInt with hle | hlt
        · exact inBounds_changeTraps _ _ _ _ hnonneg (by omega)
        · have hzero : ((addr + length).toInt - addr.toInt).toNat = 0 := by
            omega
          rw [hzero]
          exact Iff.rfl
      case isFalse hnot =>
        exact hat.inBounds_text E03 (by simp [E03]; omega) start

theorem At.inBounds_readRegisters (hat : s.At n) (hn : n ≤ 1000)
    (start : BitVec 32) :
    (s.readRegisters.reply start).InBounds ↔ s.InBounds := by
  have hlen := hat.toInt (by omega)
  have hend : s.readRegisters.At (n + 104) := by
    have hgrow : s.readRegisters.outLen = s.outLen + 104 := rfl
    rw [At, hgrow, hat]
    apply BitVec.eq_of_toNat_eq
    simp [BitVec.toNat_add, BitVec.toNat_ofNat]
  rw [hend.inBounds_reply (by omega), readRegisters, inBounds_putText]
  have hsize : (mem2hex ((List.range NUM_REG_BYTES).map
      (registerImage s.machine))).length = 104 := by
    rw [mem2hex_length, List.length_map, List.length_range]
    rfl
  constructor
  · exact fun h => h.1
  · intro h
    refine ⟨h, fun _ => ?_⟩
    have hsame : ({ s with dbRegisters := registerImage s.machine } :
      Monitor).outLen.toInt = n := hlen
    rw [hsame, hsize]
    omega

end Monitor

/-! ## Packets -/

/-- The part of a packet behind its sequence identifier. -/
def packetContent (packet : List Byte) : List Byte :=
  if packet.getD 2 0 = COLON then packet.drop 3 else packet

/-- Where the data of the reply begins, behind the acknowledgement and the
`$`. -/
def replyStart (packet : List Byte) : ℕ :=
  if packet.getD 2 0 = COLON then 4 else 2

/-- The commands with a length ask for no more than fits. -/
def PacketFits (packet : List Byte) : Prop :=
  match DbCommand.ofByte ((packetContent packet).headD 0) with
  | .readMemory => ReadFits (replyStart packet) (packetContent packet).tail
  | .writeRegister =>
      RegisterFits (replyStart packet) (packetContent packet).tail
  | .writeMemory => WriteFits (packetContent packet).tail
  | _ => True

namespace Monitor

variable {s : Monitor} {n : ℕ}

theorem inBounds_resume (singlestep : Bool) (packet : List Byte)
    (start : BitVec 32) (s : Monitor) :
    (s.resume singlestep packet start).InBounds ↔ s.InBounds := by
  rw [resume, inBounds_dbSendPacket]
  exact Iff.rfl

theorem showSignal_eq_puts (s : Monitor) :
    s.showSignal = s.puts [0x53, hexchars.getD (s.sigval >>> 4) 0,
      hexchars.getD (s.sigval &&& 0xf) 0, 0] :=
  rfl

theorem At.inBounds_dbHandlePacket (hat : s.At n) (hn : n ≤ 800)
    (content : List Byte) :
    (s.dbHandlePacket content).InBounds ↔
      s.InBounds ∧
        match DbCommand.ofByte (content.headD 0) with
        | .readMemory => ReadFits (n + 1) content.tail
        | .writeRegister => RegisterFits (n + 1) content.tail
        | .writeMemory => WriteFits content.tail
        | _ => True := by
  have hstart := hat.put DOLLAR
  have hs := hat.inBounds_put (by omega) DOLLAR
  rw [dbHandlePacket]
  cases DbCommand.ofByte (content.headD 0) with
  | signal =>
      have htext := hstart.inBounds_text
        [0x53, hexchars.getD ((s.put DOLLAR).sigval >>> 4) 0,
          hexchars.getD ((s.put DOLLAR).sigval &&& 0xf) 0, 0]
        (by simp only [List.length_cons, List.length_nil]; omega)
        (s.put DOLLAR).outLen
      rw [← showSignal_eq_puts, hs] at htext
      rw [and_true]
      exact htext
  | debug =>
      have hflag : ({ s.put DOLLAR with
        remoteDebug := !(s.put DOLLAR).remoteDebug } : Monitor).At (n + 1) :=
        hstart
      rw [and_true, ← hs]
      exact hflag.inBounds_reply (by omega) _
  | readRegisters =>
      rw [and_true, ← hs]
      exact hstart.inBounds_readRegisters (by omega) _
  | writeRegisters =>
      have hfill : ({ s.put DOLLAR with
        dbRegisters := fun i => (hex2mem content.tail
          NUM_REG_BYTES).getD i 0 } : Monitor).At (n + 1) := hstart
      rw [and_true, ← hs]
      exact hfill.inBounds_text OK (by simp [OK]; omega) _
  | writeRegister =>
      rw [← hs]
      exact hstart.inBounds_writeRegister (by omega) _ _
  | readMemory =>
      rw [← hs]
      exact hstart.inBounds_readMemory (by omega) _ _
  | writeMemory =>
      rw [← hs]
      exact hstart.inBounds_writeMemory (by omega) _ _
  | step =>
      rw [and_true, ← hs]
      exact inBounds_resume true _ _ _
  | resume =>
      rw [and_true, ← hs]
      exact inBounds_resume false _ _ _
  | detach =>
      have hflag : ({ s.put DOLLAR with cont := true } : Monitor).At
        (n + 1) := hstart
      rw [and_true, ← hs]
      exact hflag.inBounds_reply (by omega) _
  | setTraps =>
      rw [and_true, ← hs]
      exact hstart.inBounds_traps (by omega) _ _ _
  | clearTraps =>
      rw [and_true, ← hs]
      exact hstart.inBounds_traps (by omega) _ _ _
  | other =>
      rw [and_true, ← hs]
      exact hstart.inBounds_reply (by omega) _

theorem At.inBounds_dbAnswer (hat : s.At 0) (packet : List Byte) :
    (s.dbAnswer packet).InBounds ↔ s.InBounds ∧ PacketFits packet := by
  have hack := hat.put PLUS
  have hs := hat.inBounds_put (by omega) PLUS
  rw [dbAnswer, PacketFits, packetContent, replyStart]
  split
  · have hid := (hack.put (packet.getD 0 0)).put (packet.getD 1 0)
    rw [hid.inBounds_dbHandlePacket (by omega),
      (hack.put _).inBounds_put (by omega), hack.inBounds_put (by omega), hs]
  · rw [hack.inBounds_dbHandlePacket (by omega), hs]

end Monitor

theorem Session.starts (s : Session) :
    ({ s.toMonitor with accesses := [] } : Monitor).At 0 ∧
      ({ s.toMonitor with accesses := [] } : Monitor).InBounds := by
  refine ⟨s.drained, ?_⟩
  intro access hmem
  cases hmem

/-- For every packet in every session: all accesses stay within the arrays
exactly if its range fits. -/
theorem staysInBounds_iff (s : Session) (packet : List Byte) :
    StaysInBounds s packet ↔ PacketFits packet := by
  obtain ⟨hat, hempty⟩ := s.starts
  rw [StaysInBounds, hat.inBounds_dbAnswer]
  exact and_iff_right hempty

/-- The debugger attached to a machine that has just been switched on. -/
def Session.begin : Session where
  machine := Machine.powerOn (fun _ => none) [] [] []
  dbRegisters := fun _ => 0
  outBuffer := fun _ => 0
  outLen := 0
  connected := true
  broken := false
  sent := []
  sigval := 0
  remoteDebug := false
  cont := false
  accesses := []
  drained := rfl
  attached := rfl
  reachable := rfl

/-- `m0,400`: the text of 1024 bytes is as long as the whole buffer. -/
theorem staysInBounds_fails_long_read :
    ¬StaysInBounds Session.begin [0x6d, 0x30, 0x2c, 0x34, 0x30, 0x30, 0] := by
  intro hin
  have hfits := ((Session.begin.starts.1.inBounds_dbAnswer _).mp hin).2
  have hrange : RangeFits 2 0 0x400 :=
    hfits 0 0x400 [0] (by decide) (by decide)
  have hlong := (hrange.1 (by decide)).2
  revert hlong
  decide

end BrickEmu
