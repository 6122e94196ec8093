import BrickEmu.SerialReceiver
import Mathlib.Data.BitVec

/-!
# Packets the receiver accepts

The receive interrupt keeps track of the bytes since it left state 2.  It marks
a packet valid only when these are a whole message with its checksum and with
the complements.
-/

namespace BrickEmu

namespace Rom

section Encoding

def withComplements (bytes : List Byte) : List Byte :=
  bytes.flatMap fun byte => [byte, ~~~byte]

/-- A message with its checksum, every byte followed by its complement. -/
def encode (message : List Byte) : List Byte :=
  withComplements (message ++ [message.sum])

/-- The opcodes of a block of data. -/
def IsDownload (opcode : Byte) : Prop :=
  opcode &&& 0xf7 = 0x45

theorem withComplements_append (bytes : List Byte) (byte : Byte) :
    withComplements (bytes ++ [byte]) =
      withComplements bytes ++ [byte] ++ [~~~byte] := by
  simp [withComplements]

theorem encode_eq (message : List Byte) :
    encode message =
      withComplements message ++ [message.sum] ++ [~~~message.sum] :=
  withComplements_append message message.sum

theorem sum_append_byte (bytes : List Byte) (byte : Byte) :
    (bytes ++ [byte]).sum = bytes.sum + byte := by
  simp

theorem parameters_le (opcode : Byte) : (parameters opcode).toNat ≤ 5 := by
  revert opcode
  decide

end Encoding

section Soundness

/-- The place for the next byte, after `count` parameters; behind the
variables when a transmission came in between. -/
def Follows (index : Byte) (count : ℕ) : Prop :=
  index.toNat = count + 1 ∨
    0xc4 ≤ index.toNat ∧ index.toNat ≤ 0xc4 + count

/-- The receiver has read these bytes of a message since its opcode. -/
structure Reading (bytes : List Byte) (r : Receiver) (opcode : Byte)
    (params : List Byte) : Prop where
  chksum : r.chksum = (opcode :: params).sum
  index : Follows r.index params.length
  remaining : params.length + r.remaining.toNat = (parameters opcode).toNat
  bytes : (r.expect = 0 ∧ bytes = withComplements (opcode :: params)) ∨
    (r.expect ≠ 0 ∧ bytes ++ [~~~r.last] = withComplements (opcode :: params))

/-- Where the receiver is, with the bytes read since it left state 2. -/
inductive Progress (bytes : List Byte) (r : Receiver) : Prop
  | waiting (hstate : r.state = 2)
  | download (opcode : Byte) (hhead : bytes.head? = some opcode)
      (hdata : IsDownload opcode)
  | message (opcode : Byte) (params : List Byte)
      (hreading : Reading bytes r opcode params)
      (hstate : r.state = 3 ∧ r.remaining ≠ 0 ∨
        r.state = 4 ∧ r.remaining = 0)
  | checked (opcode : Byte) (params : List Byte)
      (hlength : params.length = (parameters opcode).toNat)
      (hstate : r.state = 99) (hexpect : r.expect ≠ 0)
      (hbytes : bytes ++ [~~~r.last] = encode (opcode :: params))

/-- The bytes since the receiver left state 2, with the next one. -/
def Receiver.consumed (r : Receiver) (byte : Byte) (bytes : List Byte) :
    List Byte :=
  if r.state = 2 then [byte] else bytes ++ [byte]

/-- The bytes of a message with as many parameters as its opcode asks for. -/
def Complete (bytes : List Byte) : Prop :=
  ∃ opcode params, bytes = encode (opcode :: params) ∧
    params.length = (parameters opcode).toNat

/-- The receiver goes on, and marks a packet valid only when it is complete. -/
structure Advances (bytes : List Byte) (r r' : Receiver) : Prop where
  progress : Progress bytes r'
  valid : r'.valid = r.valid ∨ Complete bytes

variable {bytes : List Byte} {r : Receiver} {byte : Byte}

theorem Follows.placed {index : Byte} {count : ℕ} (h : Follows index count)
    (hcount : count ≤ 5) : Placed index := by
  rcases h with h | ⟨hlow, -⟩
  · left
    omega
  · right
    omega

theorem Follows.next {index : Byte} {count : ℕ} (h : Follows index count)
    (hcount : count ≤ 5) :
    index + 1 ≠ 10 ∧ Follows (index + 1) (count + 1) := by
  have hnext : (index + 1).toNat = index.toNat + 1 := by
    have hlow : index.toNat < 255 := by
      rcases h with h | h <;> omega
    have hone : (1 : Byte).toNat = 1 := rfl
    rw [BitVec.toNat_add, hone]
    omega
  constructor
  · intro hten
    have hten' : (10 : Byte).toNat = 10 := rfl
    rw [hten] at hnext
    rcases h with h | h <;> omega
  · rcases h with h | ⟨hlow, hhigh⟩
    · left
      omega
    · right
      omega

theorem Reading.length_le {opcode : Byte} {params : List Byte}
    (h : Reading bytes r opcode params) : params.length ≤ 5 := by
  have hsum := h.remaining
  have hle := parameters_le opcode
  omega

theorem Reading.eq {opcode : Byte} {params : List Byte}
    (h : Reading bytes r opcode params) (hexpect : r.expect = 0) :
    bytes = withComplements (opcode :: params) := by
  rcases h.bytes with ⟨-, hbytes⟩ | ⟨hwait, -⟩
  · exact hbytes
  · exact absurd hexpect hwait

theorem progress_opcode (hstate : r.state = 2) :
    Progress [byte] (r.opcode byte) := by
  unfold Receiver.opcode
  by_cases hskip : byte = 0 ∨ byte = 0xff ∨ byte = 0x55
  · rw [if_pos hskip]
    exact .waiting hstate
  · rw [if_neg hskip]
    by_cases hdata : IsDownload byte
    · exact .download byte rfl hdata
    · have hremaining : (if parameters byte ≠ 0 ∧ byte &&& 0xf7 = 0x45 then 4
          else parameters byte) = parameters byte :=
        if_neg fun hboth => hdata hboth.2
      rw [hremaining]
      apply Progress.message byte []
      · refine ⟨?_, Or.inl rfl, ?_, Or.inr ⟨by simp, rfl⟩⟩
        · simp
        · simp
      · by_cases hnone : parameters byte = 0
        · exact Or.inr ⟨if_pos hnone, hnone⟩
        · refine Or.inl ⟨?_, hnone⟩
          simp only [if_neg hnone]
          exact if_neg hdata

theorem progress_operand {opcode : Byte} {params : List Byte}
    (h : Reading bytes r opcode params) (hexpect : r.expect = 0)
    (hstate : r.state = 3) (hremaining : r.remaining ≠ 0) :
    Progress (bytes ++ [byte]) (r.operand byte) := by
  obtain ⟨hring, hindex⟩ := h.index.next h.length_le
  have hsum := h.remaining
  have hpos : r.remaining.toNat ≠ 0 := fun hzero =>
    hremaining (BitVec.eq_of_toNat_eq hzero)
  have hnext : (r.remaining - 1).toNat = r.remaining.toNat - 1 := by
    have hlt := r.remaining.isLt
    have hone : (1 : Byte).toNat = 1 := rfl
    rw [BitVec.toNat_sub, hone]
    omega
  apply Progress.message opcode (params ++ [byte])
  · refine ⟨?_, ?_, ?_, Or.inr ⟨by simp [Receiver.operand], ?_⟩⟩
    · rw [← List.cons_append, sum_append_byte, ← h.chksum]
      rfl
    · simp only [Receiver.operand, Receiver.store, if_neg hring,
        List.length_append, List.length_singleton]
      exact hindex
    · simp only [Receiver.operand, hnext, List.length_append,
        List.length_singleton]
      omega
    · rw [← List.cons_append, withComplements_append, h.eq hexpect]
      rfl
  · simp only [Receiver.operand, hstate]
    by_cases hlast : r.remaining - 1 = 0
    · exact Or.inr ⟨if_pos hlast, hlast⟩
    · exact Or.inl ⟨if_neg hlast, hlast⟩

theorem progress_checksum {opcode : Byte} {params : List Byte}
    (h : Reading bytes r opcode params) (hexpect : r.expect = 0)
    (hremaining : r.remaining = 0) :
    Progress (bytes ++ [byte]) (r.checksum byte) := by
  have hlength : params.length = (parameters opcode).toNat := by
    have hsum := h.remaining
    rw [hremaining] at hsum
    simpa using hsum
  simp only [Receiver.checksum]
  split_ifs with hequal
  · have hsum : byte = (opcode :: params).sum := by
      rw [← h.chksum]
      exact hequal.symm
    apply Progress.checked opcode params hlength rfl
    · simp
    · rw [encode_eq, h.eq hexpect, hsum]
  · exact .waiting rfl

/-- A complement that does not end a packet. -/
theorem advances_complement
    (h : r.last = ~~~byte → Progress bytes { r with expect := 0 })
    (hstate : r.state ≠ 99) : Advances bytes r (r.complement byte) := by
  simp only [Receiver.complement, if_neg hstate]
  split_ifs with hbyte
  · exact ⟨.waiting rfl, Or.inl rfl⟩
  · exact ⟨h (not_not.mp hbyte), Or.inl rfl⟩

theorem advances_waiting (hstate : r.state = 2) :
    Advances [byte] r (r.step byte) := by
  have h99 : r.state ≠ 99 := by
    rw [hstate]
    decide
  unfold Receiver.step
  by_cases hexpect : r.expect ≠ 0
  · rw [if_pos hexpect]
    apply advances_complement (fun _ => .waiting hstate) h99
  · rw [if_neg hexpect, if_pos hstate]
    refine ⟨progress_opcode hstate, Or.inl ?_⟩
    unfold Receiver.opcode
    split_ifs <;> rfl

/-- The complement of a byte of the message has come. -/
theorem Reading.complement {opcode : Byte} {params : List Byte}
    (h : Reading bytes r opcode params) (hexpect : r.expect ≠ 0)
    (hbyte : r.last = ~~~byte) :
    Reading (bytes ++ [byte]) { r with expect := 0 } opcode params := by
  refine ⟨h.chksum, h.index, h.remaining, Or.inl ⟨rfl, ?_⟩⟩
  rcases h.bytes with ⟨hnone, -⟩ | ⟨-, hbytes⟩
  · exact absurd hnone hexpect
  · rw [hbyte, BitVec.not_not] at hbytes
    exact hbytes

theorem advances_message {opcode : Byte} {params : List Byte}
    (h : Reading bytes r opcode params)
    (hstate : r.state = 3 ∧ r.remaining ≠ 0 ∨
      r.state = 4 ∧ r.remaining = 0) :
    Advances (bytes ++ [byte]) r (r.step byte) := by
  unfold Receiver.step
  by_cases hexpect : r.expect ≠ 0
  · rw [if_pos hexpect]
    have h99 : r.state ≠ 99 := by
      rcases hstate with ⟨hstate, -⟩ | ⟨hstate, -⟩ <;> rw [hstate] <;> decide
    apply advances_complement _ h99
    exact fun hbyte => .message opcode params (h.complement hexpect hbyte) hstate
  · have hnone : r.expect = 0 := not_not.mp hexpect
    rw [if_neg hexpect]
    rcases hstate with ⟨hstate, hremaining⟩ | ⟨hstate, hremaining⟩
    · rw [if_neg (by rw [hstate]; decide), if_pos hstate]
      exact ⟨progress_operand h hnone hstate hremaining, Or.inl rfl⟩
    · rw [if_neg (by rw [hstate]; decide), if_neg (by rw [hstate]; decide),
        if_pos hstate]
      refine ⟨progress_checksum h hnone hremaining, Or.inl ?_⟩
      simp only [Receiver.checksum]
      split_ifs <;> rfl

theorem advances_checked {opcode : Byte} {params : List Byte}
    (hlength : params.length = (parameters opcode).toNat)
    (hstate : r.state = 99) (hexpect : r.expect ≠ 0)
    (hbytes : bytes ++ [~~~r.last] = encode (opcode :: params)) :
    Advances (bytes ++ [byte]) r (r.step byte) := by
  rw [Receiver.step, if_pos hexpect]
  simp only [Receiver.complement, if_pos hstate]
  split_ifs with hbyte
  · exact ⟨.waiting rfl, Or.inl rfl⟩
  · refine ⟨.waiting rfl, Or.inr ⟨opcode, params, ?_, hlength⟩⟩
    rw [not_not.mp hbyte, BitVec.not_not] at hbytes
    exact hbytes

theorem advances_rxiHandler {m : Ram} (h : Progress bytes m.entered)
    (huse : InUse m) (hidle : m serialXmitFlag = 0x4f) :
    (∃ opcode, (m.entered.consumed byte bytes).head? = some opcode ∧
      IsDownload opcode) ∨
    Advances (m.entered.consumed byte bytes) m.entered
      (rxiHandler byte m).receiver := by
  by_cases hwaiting : m.entered.state = 2
  · right
    rw [Receiver.consumed, if_pos hwaiting, receiver_rxiHandler huse hidle
      (by simp [hwaiting]) (by simp [hwaiting])]
    exact advances_waiting hwaiting
  · rw [Receiver.consumed, if_neg hwaiting]
    cases h with
    | waiting hstate => exact absurd hstate hwaiting
    | download opcode hhead hdata =>
        left
        refine ⟨opcode, ?_, hdata⟩
        rw [List.head?_append, hhead]
        rfl
    | message opcode params hreading hstate =>
        right
        have hplaced := hreading.index.placed hreading.length_le
        have hother : m.entered.state ≠ 5 ∧ m.entered.state ≠ 6 := by
          rcases hstate with ⟨hstate, -⟩ | ⟨hstate, -⟩ <;> simp [hstate]
        rw [receiver_rxiHandler huse hidle (fun _ => hplaced) hother]
        exact advances_message hreading hstate
    | checked opcode params hlength hstate hexpect hbytes =>
        right
        rw [receiver_rxiHandler huse hidle (by simp [hstate])
          (by simp [hstate])]
        exact advances_checked hlength hstate hexpect hbytes

/-- What the rest of the program leaves alone between two interrupts. -/
structure Kept (m m' : Ram) : Prop where
  state : m'.receiver.state = m.receiver.state
  expect : m'.receiver.expect = m.receiver.expect
  last : m'.receiver.last = m.receiver.last
  chksum : m'.receiver.chksum = m.receiver.chksum
  remaining : m'.receiver.remaining = m.receiver.remaining
  index : m'.receiver.index = m.receiver.index

/-- The memory after any bytes, with those the receiver has consumed since it
left state 2; a byte that comes during a transmission is dropped. -/
inductive Heard : List Byte → Ram → Prop
  | start {m : Ram} (hstate : m serialReceiveState = 2) : Heard [] m
  | kept {bytes : List Byte} {m m' : Ram} (h : Heard bytes m)
      (hkept : Kept m m') : Heard bytes m'
  | received {bytes : List Byte} {m : Ram} (byte : Byte) (h : Heard bytes m)
      (huse : InUse m) (hidle : m serialXmitFlag = 0x4f) :
      Heard (m.entered.consumed byte bytes) (rxiHandler byte m)
  | dropped {bytes : List Byte} {m : Ram} (byte : Byte) (h : Heard bytes m)
      (hbusy : m serialXmitFlag = 0x13) : Heard bytes (rxiHandler byte m)

theorem Progress.entered {m : Ram} (h : Progress bytes m.receiver) :
    Progress bytes m.entered := by
  unfold Ram.entered
  split_ifs
  · exact .waiting rfl
  · exact h

theorem Progress.kept {m m' : Ram} (h : Progress bytes m.receiver)
    (hkept : Kept m m') : Progress bytes m'.receiver := by
  cases h with
  | waiting hstate => exact .waiting (hkept.state.trans hstate)
  | download opcode hhead hdata => exact .download opcode hhead hdata
  | message opcode params hreading hstate =>
      apply Progress.message opcode params
      · constructor
        · rw [hkept.chksum, hreading.chksum]
        · rw [hkept.index]
          exact hreading.index
        · rw [hkept.remaining]
          exact hreading.remaining
        · rw [hkept.expect, hkept.last]
          exact hreading.bytes
      · rw [hkept.state, hkept.remaining]
        exact hstate
  | checked opcode params hlength hstate hexpect hbytes =>
      apply Progress.checked opcode params hlength
      · rw [hkept.state, hstate]
      · rw [hkept.expect]
        exact hexpect
      · rw [hkept.last]
        exact hbytes

theorem receiver_dropped {m : Ram} (hbusy : m serialXmitFlag = 0x13) :
    (rxiHandler byte m).receiver = { m.receiver with index := 0xc4 } := by
  have hflag : m serialXmitFlag - 0x4f = 0xc4 := by
    rw [hbusy]
    decide
  simp only [rxiHandler, hflag]
  rw [if_pos (by decide)]
  simp (disch := first | decide | (apply packetCell_ne; decide)) only
    [Ram.receiver, Ram.set_self, Ram.set_of_ne]

theorem Progress.dropped {m : Ram} (h : Progress bytes m.receiver)
    (hbusy : m serialXmitFlag = 0x13) :
    Progress bytes (rxiHandler byte m).receiver := by
  rw [receiver_dropped hbusy]
  cases h with
  | waiting hstate => exact .waiting hstate
  | download opcode hhead hdata => exact .download opcode hhead hdata
  | message opcode params hreading hstate =>
      refine .message opcode params ⟨hreading.chksum, ?_, hreading.remaining,
        hreading.bytes⟩ hstate
      right
      have hindex : (0xc4 : Byte).toNat = 0xc4 := rfl
      simp only [hindex]
      omega
  | checked opcode params hlength hstate hexpect hbytes =>
      exact .checked opcode params hlength hstate hexpect hbytes

theorem Heard.progress {m : Ram} (h : Heard bytes m) :
    Progress bytes m.receiver := by
  induction h with
  | start hstate => exact .waiting hstate
  | kept h hkept ih => exact ih.kept hkept
  | received byte h huse hidle ih =>
      rcases advances_rxiHandler ih.entered huse hidle with
        ⟨opcode, hhead, hdata⟩ | hadvances
      · exact .download opcode hhead hdata
      · exact hadvances.progress
  | dropped byte h hbusy ih => exact ih.dropped hbusy

/-- The handler marks a packet valid with this byte, whatever the mark was
before. -/
def Accepts (byte : Byte) (m : Ram) : Prop :=
  rxiHandler byte (m.set serialValidIncomingData 0)
    serialValidIncomingData ≠ 0

theorem receiver_set_valid (m : Ram) (val : Byte) :
    (m.set serialValidIncomingData val).receiver =
      { m.receiver with valid := val } := by
  simp (disch := first | decide | (apply packetCell_ne; decide)) only
    [Ram.receiver, Ram.set_self, Ram.set_of_ne]

theorem kept_set_valid (m : Ram) (val : Byte) :
    Kept m (m.set serialValidIncomingData val) := by
  have hreceiver := receiver_set_valid m val
  constructor <;> rw [hreceiver]

theorem InUse.set_valid {m : Ram} (h : InUse m) (val : Byte) :
    InUse (m.set serialValidIncomingData val) := by
  constructor
  · rw [Ram.set_of_ne (by decide)]
    exact h.header
  · rw [Ram.set_of_ne (by decide)]
    exact h.complement
  · rw [Ram.get16_set_of_ne (by decide) (by decide)]
    exact h.timer
  · rw [Ram.get16_set_of_ne (by decide) (by decide)]
    exact h.timer'
  · rw [Ram.get16_set_of_ne (by decide) (by decide)]
    exact h.runFlag

theorem entered_set_valid {m : Ram} (h : InUse m) (val : Byte) :
    (m.set serialValidIncomingData val).entered =
      { m.entered with valid := val } := by
  have hvalid : InBlock serialValidIncomingData := by decide
  have hcounter : resetCounter (m.set serialValidIncomingData val) =
      resetCounter m := by
    have htimer : (m.set serialValidIncomingData val).get16
        serialTimerStruct = m.get16 serialTimerStruct :=
      Ram.get16_set_of_ne (by decide) (by decide)
    rw [resetCounter, htimer, Ram.get16_set_of_ne]
    · rfl
    · rintro heq
      exact h.timer (heq ▸ hvalid)
    · rintro heq
      exact h.timer' (heq ▸ hvalid)
  unfold Ram.entered
  rw [hcounter, receiver_set_valid]
  split_ifs <;> rfl

/-- A packet that is no download and is marked valid is a whole message. -/
theorem Heard.complete {m : Ram} (h : Heard bytes m) (huse : InUse m)
    (hidle : m serialXmitFlag = 0x4f) (hset : Accepts byte m) :
    (∃ opcode, (m.entered.consumed byte bytes).head? = some opcode ∧
      IsDownload opcode) ∨ Complete (m.entered.consumed byte bytes) := by
  have hprogress := (h.kept (kept_set_valid m 0)).progress.entered
  have hidle' : (m.set serialValidIncomingData 0) serialXmitFlag = 0x4f := by
    rw [Ram.set_of_ne (by decide)]
    exact hidle
  have hstep := @advances_rxiHandler bytes byte _ hprogress (huse.set_valid 0)
    hidle'
  rw [entered_set_valid huse] at hstep
  rcases hstep with hdata | hadvances
  · exact Or.inl hdata
  · rcases hadvances.valid with hsame | hcomplete
    · exact absurd hsame hset
    · exact Or.inr hcomplete

end Soundness

end Rom

end BrickEmu
