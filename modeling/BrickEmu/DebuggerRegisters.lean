import BrickEmu.DebuggerBounds
import Mathlib.Data.List.GetD

/-!
# Writing registers through the debugger

The packets `G` and `P` are to change registers that the packet `g` shows.
`G` only fills `db_registers`, from which nothing is copied to the processor,
and `P` runs on into the command `m`, which adds an error to the reply.
-/

namespace BrickEmu

/-! ## Well-formed packets -/

/-- The hexadecimal text of `count` bytes. -/
structure HexText (count : ℕ) where
  chars : List Byte
  length_eq : chars.length = 2 * count
  digits : ∀ ch ∈ chars, 0 ≤ (hex ch).toInt

def HexText.byte {count : ℕ} (text : HexText count) (i : ℕ) : Byte :=
  (unhex count text.chars).getD i 0

/-- A packet `G` with the values of all registers, or a packet `P` with the
value of one; its number may have leading zeros. -/
inductive RegisterPacket where
  | all (values : HexText NUM_REG_BYTES)
  | one (zeros : ℕ) (nr : Fin 10) (value : HexText 4)

def RegisterPacket.content : RegisterPacket → List Byte
  | .all values => 0x47 :: values.chars
  | .one zeros nr value =>
      0x50 :: (List.replicate zeros 0x30 ++
        BitVec.ofNat 8 (0x30 + nr) :: EQUALS :: value.chars)

section Image

theorem neZero_registers : NeZero (10 : ℕ) :=
  ⟨Nat.succ_ne_zero 9⟩

attribute [local instance] neZero_registers

/-- One of r0 to r7, ccr and pc in an image of 32-bit registers. -/
def imageRegister (image : ℕ → Byte) (nr : Fin 10) : Word :=
  if nr = 8 then (image 33).setWidth 16
  else image (4 * nr) ++ image (4 * nr + 1)

/-- The values a `g` packet is to return after the packet. -/
def RegisterPacket.expected (m : Machine) (nr : Fin 10) :
    RegisterPacket → Word
  | .all values => imageRegister values.byte nr
  | .one _ nr' value =>
      if nr = nr' then
        if nr = 8 then (value.byte 1).setWidth 16
        else value.byte 0 ++ value.byte 1
      else imageRegister (Monitor.registerImage m) nr

end Image

/-- A sequence identifier before the content. -/
def sequenceId : Option (Byte × Byte) → List Byte
  | some (first, second) => [first, second, COLON]
  | none => []

/-- The acknowledgement, which repeats the identifier. -/
def acknowledgement : Option (Byte × Byte) → List Byte
  | some (first, second) => [PLUS, first, second]
  | none => [PLUS]

/-- The answer that has been sent carries the given data. -/
def Replies (id : Option (Byte × Byte)) (data : List Byte)
    (s t : Monitor) : Prop :=
  ∃ high low, t.sent = s.sent ++
    [acknowledgement id ++ DOLLAR :: data ++ [HASH, high, low]]

/-- The packet is answered with `OK`, and a packet `g` after it returns the
written registers and the others as they were.  Either packet may come with
a sequence identifier, and behind its 0 are the digits of its checksum and
old bytes. -/
def RegistersWritten (s : Session) (id : Option (Byte × Byte))
    (packet : RegisterPacket) (rest : List Byte) : Prop :=
  let t := s.dbAnswer (sequenceId id ++ packet.content ++ 0 :: rest)
  Replies id OK s.toMonitor t ∧
    ∀ (id' : Option (Byte × Byte)) (rest' : List Byte),
      rest'.headD 0 ≠ COLON → ∃ text, Replies id' text t
          (t.dbAnswer (sequenceId id' ++ 0x67 :: 0 :: rest')) ∧
        ∀ nr, imageRegister (fun i => (unhex NUM_REG_BYTES text).getD i 0)
          nr = packet.expected s.machine nr

/-! ## What the output buffer holds -/

/-- `t` has the text in its buffer and is otherwise like `s`. -/
structure Writes (text : List Byte) (s t : Monitor) : Prop where
  position : t.At text.length
  bytes : ∀ i < text.length, t.outBuffer i = text.getD i 0
  machine : t.machine = s.machine
  connected : t.connected = s.connected
  broken : t.broken = s.broken
  sent : t.sent = s.sent

theorem acknowledgement_length (id : Option (Byte × Byte)) :
    (acknowledgement id).length ≤ 3 := by
  rcases id with _ | ⟨first, second⟩ <;> simp [acknowledgement]

namespace Writes

variable {text : List Byte} {s t : Monitor}

theorem put (h : Writes text s t) (htext : text.length ≤ 2000) (ch : Byte) :
    Writes (text ++ [ch]) s (t.put ch) where
  position := by
    rw [List.length_append]
    exact h.position.put ch
  bytes := by
    intro i hi
    have hlen := h.position.toInt (by omega)
    have hbuffer : (t.put ch).outBuffer =
        Function.update t.outBuffer t.outLen.toInt ch := rfl
    rw [List.length_append, List.length_singleton] at hi
    rw [hbuffer, hlen]
    rcases Nat.lt_succ_iff_lt_or_eq.mp hi with hold | rfl
    · rw [Function.update_of_ne (by exact_mod_cast hold.ne),
        List.getD_append _ _ _ _ hold]
      exact h.bytes i hold
    · rw [Function.update_self, List.getD_append_right _ _ _ _ le_rfl]
      simp
  machine := h.machine
  connected := h.connected
  broken := h.broken
  sent := h.sent

theorem puts (more : List Byte) :
    ∀ {text : List Byte} {t : Monitor}, Writes text s t →
      text.length + more.length ≤ 2000 → Writes (text ++ more) s (t.puts more) := by
  induction more with
  | nil =>
      intro text t h hlength
      rw [List.append_nil]
      exact h
  | cons ch more ih =>
      intro text t h hlength
      rw [List.length_cons] at hlength
      have hput := h.put (by omega) ch
      have hrest := ih hput (by rw [List.length_append]; simp; omega)
      rw [List.append_assoc, List.singleton_append] at hrest
      exact hrest

/-- The stores of `mem2hex` leave the same bytes as putting them one after
the other. -/
theorem storeText_outBuffer (more : List Byte) :
    ∀ {t u : Monitor} {n : ℕ}, t.outBuffer = u.outBuffer → u.At n →
      n + more.length ≤ 2000 →
      (Monitor.storeText more n t).outBuffer = (u.puts more).outBuffer := by
  induction more with
  | nil =>
      intro t u n hsame hat hn
      exact hsame
  | cons ch more ih =>
      intro t u n hsame hat hn
      rw [List.length_cons] at hn
      have hput : (t.storeOut n ch).outBuffer = (u.put ch).outBuffer := by
        have hlen := hat.toInt (by omega)
        have hstore : (t.storeOut n ch).outBuffer =
            Function.update t.outBuffer n ch := rfl
        have hnew : (u.put ch).outBuffer =
            Function.update u.outBuffer u.outLen.toInt ch := rfl
        rw [hstore, hnew, hsame, hlen]
      have hrest := ih hput (hat.put ch) (by omega)
      rw [Nat.cast_add, Nat.cast_one] at hrest
      exact hrest

theorem storeText_frame (more : List Byte) :
    ∀ (i : ℤ) (t : Monitor),
      (Monitor.storeText more i t).machine = t.machine ∧
      (Monitor.storeText more i t).connected = t.connected ∧
      (Monitor.storeText more i t).broken = t.broken ∧
      (Monitor.storeText more i t).sent = t.sent := by
  induction more with
  | nil =>
      intro i t
      exact ⟨rfl, rfl, rfl, rfl⟩
  | cons ch more ih =>
      intro i t
      exact ih (i + 1) (t.storeOut i ch)

theorem putText (h : Writes text s t) (more : List Byte)
    (size : BitVec 32) (hsize : size = BitVec.ofNat 32 more.length)
    (hlength : text.length + more.length ≤ 2000) :
    Writes (text ++ more) s (t.putText more size) := by
  have hputs := puts more h hlength
  have hlen := h.position.toInt (by omega)
  obtain ⟨hmachine, hconnected, hbroken, hsent⟩ :=
    storeText_frame more t.outLen.toInt t
  refine ⟨?_, ?_, hmachine.trans h.machine, hconnected.trans h.connected,
    hbroken.trans h.broken, hsent.trans h.sent⟩
  · have hgrow : (t.putText more size).outLen = t.outLen + size := rfl
    rw [Monitor.At, hgrow, h.position, hsize, List.length_append]
    apply BitVec.eq_of_toNat_eq
    simp [BitVec.toNat_add, BitVec.toNat_ofNat]
  · intro i hi
    have hbuffer : (t.putText more size).outBuffer =
        (Monitor.storeText more t.outLen.toInt t).outBuffer := rfl
    rw [hbuffer, hlen, storeText_outBuffer more rfl h.position hlength]
    exact hputs.bytes i hi

theorem checksum (h : Writes text s t) (htext : text.length ≤ 1900)
    (start : BitVec 32) :
    ∃ high low, Writes (text ++ [HASH, high, low]) s
      (t.dbChecksumPacket start) := by
  exact ⟨_, _, puts [HASH, _, _] h (by simp; omega)⟩

theorem outBytes (h : Writes text s t) (htext : text.length ≤ 2000) :
    t.outBytes 0 t.outLen.toInt = text := by
  have hlen := h.position.toInt (by omega)
  rw [Monitor.outBytes, hlen]
  apply List.ext_getElem
  · simp
  · intro i hi hi'
    simp only [List.getElem_map, List.getElem_range, zero_add]
    rw [h.bytes i hi', List.getD_eq_getElem]

/-- What the debugger receives, and the state the next packet finds. -/
theorem send (h : Writes text s t) (htext : text.length ≤ 2000)
    (hconnected : s.connected = true) :
    t.dbSendPacket.sent = s.sent ++ [text] ∧
    t.dbSendPacket.outLen = 0 ∧
    t.dbSendPacket.connected = !s.broken ∧
    t.dbSendPacket.broken = s.broken ∧
    t.dbSendPacket.machine = s.machine := by
  rw [Monitor.dbSendPacket, if_pos (h.connected.trans hconnected)]
  refine ⟨?_, rfl, ?_, h.broken, h.machine⟩
  · simp only [h.outBytes htext, h.sent]
  · simp only [h.broken]

theorem onMachine (h : Writes text s t) (change : Machine → Machine) :
    Writes text (s.onMachine change) (t.onMachine change) where
  position := h.position
  bytes := h.bytes
  machine := congrArg change h.machine
  connected := h.connected
  broken := h.broken
  sent := h.sent

/-- The end of a reply whose data stands behind the `$`. -/
theorem reply {id : Option (Byte × Byte)} {data : List Byte}
    (h : Writes (acknowledgement id ++ DOLLAR :: data) s t)
    (hdata : data.length ≤ 1800) (hconnected : s.connected = true)
    (start : BitVec 32) :
    Replies id data s (t.reply start) ∧
    (t.reply start).outLen = 0 ∧
    (t.reply start).connected = !s.broken ∧
    (t.reply start).broken = s.broken ∧
    (t.reply start).machine = s.machine := by
  have hack := acknowledgement_length id
  have htext : (acknowledgement id ++ DOLLAR :: data).length ≤ 1810 := by
    rw [List.length_append, List.length_cons]
    omega
  obtain ⟨high, low, hsum⟩ := h.checksum (by omega) start
  have hlong : (acknowledgement id ++ DOLLAR :: data ++
      [HASH, high, low]).length ≤ 2000 := by
    rw [List.length_append, List.length_cons, List.length_cons,
      List.length_singleton]
    omega
  obtain ⟨hsent, hrest⟩ := hsum.send hlong hconnected
  exact ⟨⟨high, low, hsent⟩, hrest⟩

end Writes

theorem writes_nil {s : Monitor} (hdrained : s.outLen = 0) :
    Writes [] s s where
  position := hdrained
  bytes := fun i hi => absurd hi (Nat.not_lt_zero i)
  machine := rfl
  connected := rfl
  broken := rfl
  sent := rfl

/-- The packet reaches `db_handle_packet` behind its acknowledgement. -/
theorem Monitor.dbAnswer_content (id : Option (Byte × Byte))
    {content : List Byte} (hcontent : content.getD 2 0 ≠ COLON)
    (s : Monitor) :
    s.dbAnswer (sequenceId id ++ content) =
      (s.puts (acknowledgement id)).dbHandlePacket content := by
  rcases id with _ | ⟨first, second⟩
  · rw [dbAnswer]
    exact if_neg hcontent
  · rfl

/-! ## The texts of numbers -/

theorem unhex_hexPair :
    ∀ ch : Byte,
      (hex (hexchars.getD (ch >>> 4).toNat 0) <<< 4).setWidth 8 +
        (hex (hexchars.getD (ch % 16).toNat 0)).setWidth 8 = ch := by
  decide +kernel

theorem unhex_mem2hex (bytes : List Byte) :
    unhex bytes.length (mem2hex bytes) = bytes := by
  induction bytes with
  | nil => rfl
  | cons ch bytes ih =>
      have htext : mem2hex (ch :: bytes) =
          hexchars.getD (ch >>> 4).toNat 0 ::
            hexchars.getD (ch % 16).toNat 0 :: mem2hex bytes := rfl
      rw [htext, List.length_cons, unhex]
      simp only [List.getD_cons_zero, List.getD_cons_succ, List.drop_succ_cons,
        List.drop_zero]
      rw [unhex_hexPair, ih]

theorem hex_zero : (hex 0).toInt = -1 := by decide

theorem ne_zero_of_digit {ch : Byte} (hch : 0 ≤ (hex ch).toInt) : ch ≠ 0 := by
  rintro rfl
  rw [hex_zero] at hch
  omega

/-- Digits are taken one after the other. -/
theorem hexDigits_append (digits : List Byte) (packet : List Byte) :
    ∀ (numChars : ℕ) (value : BitVec 32),
      (∀ ch ∈ digits, 0 ≤ (hex ch).toInt) →
      ∃ value', hexDigits (digits ++ packet) numChars value =
        hexDigits packet (numChars + digits.length) value' := by
  induction digits with
  | nil =>
      intro numChars value hdigits
      exact ⟨value, rfl⟩
  | cons ch digits ih =>
      intro numChars value hdigits
      have hch := hdigits ch List.mem_cons_self
      obtain ⟨value', hvalue⟩ := ih (numChars + 1) (value <<< 4 ||| hex ch)
        fun ch' hmem => hdigits ch' (List.mem_cons_of_mem ch hmem)
      refine ⟨value', ?_⟩
      rw [List.cons_append, hexDigits, if_pos ⟨ne_zero_of_digit hch, hch⟩,
        hvalue, List.length_cons, Nat.add_assoc, Nat.add_comm 1]

theorem hexDigits_zeros (zeros : ℕ) (packet : List Byte) :
    ∀ numChars : ℕ,
      hexDigits (List.replicate zeros 0x30 ++ packet) numChars 0 =
        hexDigits packet (numChars + zeros) 0 := by
  induction zeros with
  | zero =>
      intro numChars
      rfl
  | succ zeros ih =>
      intro numChars
      have hzero : (0 : BitVec 32) <<< 4 ||| hex 0x30 = 0 := by decide
      rw [List.replicate_succ, List.cons_append, hexDigits,
        if_pos (by decide), hzero, ih, Nat.add_assoc, Nat.add_comm 1]

theorem hexDigits_stop {ch : Byte} (hch : ¬0 ≤ (hex ch).toInt)
    (packet : List Byte) (numChars : ℕ) (value : BitVec 32) :
    hexDigits (ch :: packet) numChars value =
      (numChars, value, ch :: packet) := by
  rw [hexDigits, if_neg fun h => hch h.2]

theorem hex_digit_nr :
    ∀ nr : Fin 10, hex (BitVec.ofNat 8 (0x30 + nr)) = BitVec.ofNat 32 nr ∧
      0 ≤ (hex (BitVec.ofNat 8 (0x30 + nr))).toInt := by
  decide

theorem parseRegister_number (zeros : ℕ) (nr : Fin 10) (packet : List Byte) :
    parseRegister (List.replicate zeros 0x30 ++
        BitVec.ofNat 8 (0x30 + nr) :: EQUALS :: packet) =
      some (BitVec.ofNat 32 nr, packet) := by
  obtain ⟨hvalue, hdigit⟩ := hex_digit_nr nr
  have hint : hexToInt (List.replicate zeros 0x30 ++
      BitVec.ofNat 8 (0x30 + nr) :: EQUALS :: packet) =
      some (BitVec.ofNat 32 nr, EQUALS :: packet) := by
    rw [hexToInt, hexDigits_zeros, hexDigits,
      if_pos ⟨ne_zero_of_digit hdigit, hdigit⟩,
      hexDigits_stop (by decide), hvalue]
    simp only [ne_eq, Nat.add_eq_zero_iff, one_ne_zero, and_false,
      not_false_eq_true, if_true]
    simp
  have hbound : ∀ nr : Fin 10, 0 ≤ (BitVec.ofNat 32 nr).toInt ∧
      (BitVec.ofNat 32 nr).toInt < NUM_REGS := by decide
  rw [parseRegister, hint]
  simp only [Option.bind_eq_bind, Option.bind_some, expect, List.headD_cons,
    if_true, List.tail_cons]
  rw [if_pos (hbound nr)]
  rfl

/-- The digits of the value are an address with no comma behind it. -/
theorem parseRange_digits {digits : List Byte} (hdigits : digits ≠ [])
    (hall : ∀ ch ∈ digits, 0 ≤ (hex ch).toInt) (rest : List Byte) :
    parseRange (digits ++ 0 :: rest) = none := by
  obtain ⟨value, hvalue⟩ := hexDigits_append digits (0 :: rest) 0 0 hall
  have hlength : 0 + digits.length ≠ 0 := by
    have := List.length_pos_iff.mpr hdigits
    omega
  have hint : hexToInt (digits ++ 0 :: rest) = some (value, 0 :: rest) := by
    rw [hexToInt, hvalue, hexDigits_stop (by decide)]
    simp only [if_pos hlength]
  have hcomma : expect COMMA (0 :: rest) = none := rfl
  rw [parseRange, hint]
  simp only [Option.bind_eq_bind, Option.bind_some, hcomma, Option.bind_none]

/-! ## The three packets -/

theorem HexText.getD_ne_colon {count : ℕ} (text : HexText count) (i : ℕ)
    (rest : List Byte) (hi : i < 2 * count) :
    (text.chars ++ rest).getD i 0 ≠ COLON := by
  rw [← text.length_eq] at hi
  rw [List.getD_append _ _ _ _ hi, List.getD_eq_getElem _ _ hi]
  intro hcolon
  have hdigit := text.digits _ (List.getElem_mem hi)
  rw [hcolon] at hdigit
  revert hdigit
  decide

/-- No well-formed packet is taken for one with a sequence identifier. -/
theorem RegisterPacket.content_getD (packet : RegisterPacket)
    (rest : List Byte) : (packet.content ++ rest).getD 2 0 ≠ COLON := by
  cases packet with
  | all values =>
      exact values.getD_ne_colon 1 rest (by decide)
  | one zeros nr value =>
      have hnr : ∀ nr : Fin 10, BitVec.ofNat 8 (0x30 + nr) ≠ COLON := by decide
      rcases zeros with _ | _ | zeros
      · rw [content]
        simp only [List.replicate_zero, List.nil_append, List.cons_append,
          List.getD_cons_succ, List.getD_cons_zero]
        decide
      · rw [content]
        simp only [zero_add, List.replicate_one, List.cons_append,
          List.nil_append, List.getD_cons_succ, List.getD_cons_zero]
        exact hnr nr
      · rw [content]
        simp only [List.replicate_succ, List.cons_append,
          List.getD_cons_succ, List.getD_cons_zero]
        decide

namespace Monitor

variable {s : Monitor} {id : Option (Byte × Byte)}

/-- The start of every answer. -/
theorem writes_dollar (hdrained : s.outLen = 0)
    (id : Option (Byte × Byte)) :
    Writes (acknowledgement id ++ [DOLLAR]) s
      ((s.puts (acknowledgement id)).put DOLLAR) := by
  have hack := acknowledgement_length id
  have hputs := Writes.puts (acknowledgement id) (writes_nil hdrained)
    (by simp only [List.length_nil]; omega)
  rw [List.nil_append] at hputs
  exact hputs.put (by omega) DOLLAR

/-- The answer to `g`. -/
theorem replies_readRegisters (hdrained : s.outLen = 0)
    (hconnected : s.connected = true) (id : Option (Byte × Byte))
    {rest : List Byte} (hrest : rest.headD 0 ≠ COLON) :
    Replies id
      (mem2hex ((List.range NUM_REG_BYTES).map (registerImage s.machine))) s
      (s.dbAnswer (sequenceId id ++ 0x67 :: 0 :: rest)) := by
  have hcontent : (0x67 :: 0 :: rest : List Byte).getD 2 0 ≠ COLON := by
    cases rest <;> exact hrest
  rw [dbAnswer_content id hcontent]
  have hdollar := writes_dollar hdrained id
  generalize ht : (s.puts (acknowledgement id)).put DOLLAR = t at hdollar
  have himage : Writes (acknowledgement id ++ [DOLLAR]) s
      { t with dbRegisters := registerImage t.machine } :=
    ⟨hdollar.position, hdollar.bytes, hdollar.machine, hdollar.connected,
      hdollar.broken, hdollar.sent⟩
  have hsize : (mem2hex ((List.range NUM_REG_BYTES).map
      (registerImage t.machine))).length = 104 := by
    rw [mem2hex_length, List.length_map, List.length_range]
    rfl
  have hack := acknowledgement_length id
  have htext := himage.putText
    (mem2hex ((List.range NUM_REG_BYTES).map (registerImage t.machine)))
    (2 * BitVec.ofNat 32 NUM_REG_BYTES) (by rw [hsize]; rfl)
    (by rw [hsize, List.length_append, List.length_singleton]; omega)
  rw [List.append_assoc, List.singleton_append] at htext
  have hhandle : (s.puts (acknowledgement id)).dbHandlePacket
      (0x67 :: 0 :: rest) = t.readRegisters.reply t.outLen := by
    have hcommand : DbCommand.ofByte
        ((0x67 :: 0 :: rest : List Byte).headD 0) = .readRegisters := by
      rw [List.headD_cons]
      decide
    rw [dbHandlePacket, hcommand, ht]
  have hreply := (htext.reply (by omega) hconnected t.outLen).1
  rw [hhandle, ← hdollar.machine]
  exact hreply

/-- The answer to `G`: the processor stays as it is. -/
theorem replies_writeRegisters (hdrained : s.outLen = 0)
    (hconnected : s.connected = true) (id : Option (Byte × Byte))
    (values : HexText NUM_REG_BYTES) (rest : List Byte) :
    let t := s.dbAnswer (sequenceId id ++
      (RegisterPacket.all values).content ++ 0 :: rest)
    Replies id OK s t ∧ t.outLen = 0 ∧ t.connected = !s.broken ∧
      t.broken = s.broken ∧ t.machine = s.machine := by
  intro t
  have ht : t = (s.puts (acknowledgement id)).dbHandlePacket
      ((RegisterPacket.all values).content ++ 0 :: rest) := by
    rw [← dbAnswer_content id (RegisterPacket.content_getD _ _),
      ← List.append_assoc]
  have hdollar := writes_dollar hdrained id
  have hfill : Writes (acknowledgement id ++ [DOLLAR]) s
      { (s.puts (acknowledgement id)).put DOLLAR with
        dbRegisters := fun i =>
          (hex2mem (values.chars ++ 0 :: rest) NUM_REG_BYTES).getD i 0 } :=
    ⟨hdollar.position, hdollar.bytes, hdollar.machine, hdollar.connected,
      hdollar.broken, hdollar.sent⟩
  have hack := acknowledgement_length id
  have hok := Writes.puts OK hfill
    (by rw [List.length_append, List.length_singleton]; simp [OK]; omega)
  rw [List.append_assoc, List.singleton_append] at hok
  rw [ht]
  exact hok.reply (by simp [OK]) hconnected
    ((s.puts (acknowledgement id)).put DOLLAR).outLen

/-- The answer to `P`: the value is taken for a malformed `m`. -/
theorem replies_writeRegister (hdrained : s.outLen = 0)
    (hconnected : s.connected = true) (id : Option (Byte × Byte))
    (zeros : ℕ) (nr : Fin 10) (value : HexText 4) (rest : List Byte) :
    Replies id (OK ++ E01) s (s.dbAnswer (sequenceId id ++
      (RegisterPacket.one zeros nr value).content ++ 0 :: rest)) := by
  rw [List.append_assoc, dbAnswer_content id (RegisterPacket.content_getD _ _)]
  have hdollar := writes_dollar hdrained id
  generalize ht : (s.puts (acknowledgement id)).put DOLLAR = t at hdollar
  have hack := acknowledgement_length id
  have hvalue : value.chars ≠ [] := by
    apply List.ne_nil_of_length_pos
    rw [value.length_eq]
    omega
  have hhandle : (s.puts (acknowledgement id)).dbHandlePacket
      ((RegisterPacket.one zeros nr value).content ++ 0 :: rest) =
      (t.writeRegister (List.replicate zeros 0x30 ++
        BitVec.ofNat 8 (0x30 + nr) :: EQUALS ::
          (value.chars ++ 0 :: rest))).reply t.outLen := by
    rw [RegisterPacket.content, List.cons_append, List.append_assoc,
      List.cons_append, List.cons_append, dbHandlePacket, List.headD_cons,
      List.tail_cons, ht]
    rfl
  have hwrite : t.writeRegister (List.replicate zeros 0x30 ++
      BitVec.ofNat 8 (0x30 + nr) :: EQUALS :: (value.chars ++ 0 :: rest)) =
      (t.onMachine (setRegister (BitVec.ofNat 32 nr)
        (hex2mem (value.chars ++ 0 :: rest) 4))).puts (OK ++ E01) := by
    rw [writeRegister, parseRegister_number]
    simp only
    rw [readMemory, parseRange_digits hvalue value.digits]
    simp only [puts]
    rw [List.foldl_append]
  have hset := hdollar.onMachine (setRegister (BitVec.ofNat 32 nr)
    (hex2mem (value.chars ++ 0 :: rest) 4))
  have hok := Writes.puts (OK ++ E01) hset
    (by rw [List.length_append, List.length_singleton]; simp [OK, E01]; omega)
  rw [List.append_assoc, List.singleton_append] at hok
  have hreply := (hok.reply (by simp [OK, E01]) hconnected t.outLen).1
  rw [hhandle, hwrite]
  exact hreply

end Monitor

/-- The data of an answer is determined. -/
theorem Replies.data_eq {id : Option (Byte × Byte)} {data data' : List Byte}
    {s t : Monitor} (h : Replies id data s t) (h' : Replies id data' s t) :
    data = data' := by
  obtain ⟨high, low, hsent⟩ := h
  obtain ⟨high', low', hsent'⟩ := h'
  rw [hsent] at hsent'
  have htext := List.singleton_inj.mp (List.append_cancel_left hsent')
  rw [List.append_assoc, List.append_assoc] at htext
  have hdata := List.append_cancel_left htext
  rw [List.cons_append, List.cons_append] at hdata
  exact List.append_inj_left' (List.cons_inj_right DOLLAR |>.mp hdata) rfl

theorem Session.not_registersWritten_one (s : Session)
    (id : Option (Byte × Byte)) (zeros : ℕ) (nr : Fin 10)
    (value : HexText 4) (rest : List Byte) :
    ¬RegistersWritten s id (.one zeros nr value) rest := by
  rintro ⟨hok, -⟩
  have herror := Monitor.replies_writeRegister s.drained s.attached id zeros
    nr value rest
  have hdata := hok.data_eq herror
  revert hdata
  decide

theorem imageRegister_shown (m : Machine) :
    (fun i => (unhex NUM_REG_BYTES (mem2hex ((List.range NUM_REG_BYTES).map
      (Monitor.registerImage m)))).getD i 0) =
      fun i => if i < NUM_REG_BYTES then Monitor.registerImage m i else 0 := by
  have hlength : ((List.range NUM_REG_BYTES).map
      (Monitor.registerImage m)).length = NUM_REG_BYTES := by simp
  have hbytes := unhex_mem2hex ((List.range NUM_REG_BYTES).map
    (Monitor.registerImage m))
  rw [hlength] at hbytes
  funext i
  rw [hbytes]
  split
  case isTrue hi => simp [List.getD, hi]
  case isFalse hi => simp [List.getD, hi]

/-- What `g` returns is what the processor holds. -/
theorem imageRegister_readRegisters (m : Machine) (nr : Fin 10) :
    imageRegister (fun i => (unhex NUM_REG_BYTES (mem2hex
      ((List.range NUM_REG_BYTES).map (Monitor.registerImage m)))).getD i 0)
        nr = imageRegister (Monitor.registerImage m) nr := by
  have hnr := nr.isLt
  rw [imageRegister_shown, imageRegister, imageRegister]
  have hsize : NUM_REG_BYTES = 52 := rfl
  rw [hsize]
  rw [if_pos (show 33 < 52 by omega), if_pos (show 4 * nr.val < 52 by omega),
    if_pos (show 4 * nr.val + 1 < 52 by omega)]

theorem Session.registersWritten_all (s : Session)
    (id : Option (Byte × Byte)) (values : HexText NUM_REG_BYTES)
    (rest : List Byte) :
    RegistersWritten s id (.all values) rest ↔
      ∀ nr, imageRegister values.byte nr =
        imageRegister (Monitor.registerImage s.machine) nr := by
  obtain ⟨hok, hdrained, hconnected, -, hmachine⟩ :=
    Monitor.replies_writeRegisters s.drained s.attached id values rest
  rw [s.reachable, Bool.not_false] at hconnected
  constructor
  · rintro ⟨-, hread⟩ nr
    obtain ⟨text, htext, hshown⟩ := hread none [] (by decide)
    have hreply := Monitor.replies_readRegisters hdrained hconnected none
      (show ([] : List Byte).headD 0 ≠ COLON by decide)
    rw [hmachine] at hreply
    have hvalue := hshown nr
    rw [htext.data_eq hreply, imageRegister_readRegisters] at hvalue
    exact hvalue.symm
  · intro hsame
    refine ⟨hok, fun id' rest' hrest' => ?_⟩
    have hreply := Monitor.replies_readRegisters hdrained hconnected id' hrest'
    rw [hmachine] at hreply
    refine ⟨_, hreply, fun nr => ?_⟩
    rw [imageRegister_readRegisters]
    exact (hsame nr).symm

/-- For every session and every well-formed packet: it is answered with `OK`
and takes effect exactly if it is a `G` that changes nothing. -/
theorem registersWritten_iff (s : Session) (id : Option (Byte × Byte))
    (packet : RegisterPacket) (rest : List Byte) :
    RegistersWritten s id packet rest ↔
      ∃ values, packet = .all values ∧
        ∀ nr, imageRegister values.byte nr =
          imageRegister (Monitor.registerImage s.machine) nr := by
  cases packet with
  | all values =>
      rw [s.registersWritten_all]
      constructor
      · exact fun h => ⟨values, rfl, h⟩
      · rintro ⟨values', heq, h⟩
        cases heq
        exact h
  | one zeros nr value =>
      constructor
      · exact fun h => absurd h (s.not_registersWritten_one id zeros nr value rest)
      · rintro ⟨values, heq, -⟩
        cases heq

/-- `P1=12340000` is answered with `OKE01`. -/
theorem registersWritten_fails_one :
    ¬RegistersWritten Session.begin none
      (.one 0 1 ⟨[0x31, 0x32, 0x33, 0x34, 0x30, 0x30, 0x30, 0x30], by decide,
        by decide⟩) [] :=
  Session.begin.not_registersWritten_one none 0 1 _ []

end BrickEmu
