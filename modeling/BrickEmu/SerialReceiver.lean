import BrickEmu.RomSerial

/-!
# The infrared receiver

The receive interrupt of the ROM as a machine on its own variables.
-/

namespace BrickEmu

namespace Rom

section Variables

/-- The variables of the serial routines. -/
def InBlock (addr : Word) : Prop :=
  0xef50 ≤ addr.toNat ∧ addr.toNat < 0xefc6

/-- The ring of received bytes. -/
def InPacket (addr : Word) : Prop :=
  0xef9d ≤ addr.toNat ∧ addr.toNat < 0xefa7

instance (addr : Word) : Decidable (InBlock addr) :=
  inferInstanceAs (Decidable (_ ∧ _))

instance (addr : Word) : Decidable (InPacket addr) :=
  inferInstanceAs (Decidable (_ ∧ _))

variable {m : Ram} {a : Word}

theorem packet_toNat (index : Byte) :
    (serialIncomingPacket + index.setWidth 16).toNat =
      0xef9d + index.toNat := by
  have hbase : serialIncomingPacket.toNat = 0xef9d := rfl
  have hlt := index.isLt
  rw [BitVec.toNat_add, BitVec.toNat_setWidth, hbase]
  omega

/-- The index is a place of the ring, or one behind the variables, where a
byte that comes during a transmission puts it. -/
def Placed (index : Byte) : Prop :=
  index.toNat < 10 ∨ 0x29 ≤ index.toNat

theorem storeIncoming_var {byte : Byte} (hblock : InBlock a)
    (hvar : ¬ InPacket a) (hne : a ≠ serialReceiveIndex)
    (hindex : Placed (m serialReceiveIndex)) :
    storeIncoming byte m a = m a := by
  have hpacket : a ≠
      serialIncomingPacket + (m serialReceiveIndex).setWidth 16 := by
    rintro rfl
    rw [InPacket, packet_toNat] at hvar
    rw [InBlock, packet_toNat] at hblock
    rcases hindex with hindex | hindex <;> omega
  rw [storeIncoming, Ram.set_of_ne hne, Ram.set_of_ne hpacket]

theorem storeIncoming_index {byte : Byte} :
    storeIncoming byte m serialReceiveIndex =
      if m serialReceiveIndex + 1 = 10 then 0
      else m serialReceiveIndex + 1 :=
  Ram.set_self ..

/-- The places of the ring. -/
def packetCell (i : Fin 10) : Word :=
  serialIncomingPacket + BitVec.ofNat 16 i

theorem packetCell_toNat (i : Fin 10) : (packetCell i).toNat = 0xef9d + i := by
  have hbase : serialIncomingPacket.toNat = 0xef9d := rfl
  have hi := i.isLt
  rw [packetCell, BitVec.toNat_add, BitVec.toNat_ofNat, hbase]
  omega

theorem packetCell_ne (i : Fin 10) (ha : ¬ InPacket a) : packetCell i ≠ a := by
  rintro rfl
  have hi := i.isLt
  apply ha
  rw [InPacket, packetCell_toNat]
  omega

theorem inBlock_packetCell (i : Fin 10) : InBlock (packetCell i) := by
  have hi := i.isLt
  rw [InBlock, packetCell_toNat]
  omega

theorem packetCell_eq_iff (i : Fin 10) (index : Byte) :
    packetCell i = serialIncomingPacket + index.setWidth 16 ↔
      i.val = index.toNat := by
  rw [← BitVec.toNat_inj, packetCell_toNat, packet_toNat]
  omega

theorem storeIncoming_packet (byte : Byte) (i : Fin 10) :
    storeIncoming byte m (packetCell i) =
      if i.val = (m serialReceiveIndex).toNat then byte
      else m (packetCell i) := by
  rw [storeIncoming, Ram.set_of_ne (packetCell_ne i (by decide))]
  by_cases hsame : i.val = (m serialReceiveIndex).toNat
  · rw [if_pos hsame, (packetCell_eq_iff i _).mpr hsame, Ram.set_self]
  · rw [if_neg hsame,
      Ram.set_of_ne fun heq => hsame ((packetCell_eq_iff i _).mp heq)]

theorem set_packet_first (byte : Byte) (i : Fin 10) :
    (m.set serialIncomingPacket byte) (packetCell i) =
      if i.val = 0 then byte else m (packetCell i) := by
  have hfirst : packetCell i = serialIncomingPacket ↔ i.val = 0 := by
    have hbase : serialIncomingPacket.toNat = 0xef9d := rfl
    rw [← BitVec.toNat_inj, packetCell_toNat, hbase]
    omega
  by_cases hzero : i.val = 0
  · rw [if_pos hzero, hfirst.mpr hzero, Ram.set_self]
  · rw [if_neg hzero, Ram.set_of_ne fun heq => hzero (hfirst.mp heq)]

end Variables

/-- The variables of the receiver and the bytes it has received. -/
@[ext]
structure Receiver where
  state : Byte
  expect : Byte
  last : Byte
  chksum : Byte
  remaining : Byte
  index : Byte
  valid : Byte
  packet : Fin 10 → Byte

def Ram.receiver (m : Ram) : Receiver where
  state := m serialReceiveState
  expect := m serialExpectComplement
  last := m serialLastReceivedByte
  chksum := m serialReceiveChksum
  remaining := m serialReceiveLengthRemaining
  index := m serialReceiveIndex
  valid := m serialValidIncomingData
  packet i := m (packetCell i)

namespace Receiver

def reset (r : Receiver) : Receiver :=
  { r with state := 2, last := 0xff }

def store (byte : Byte) (r : Receiver) : Receiver :=
  { r with
    packet := fun i => if i.val = r.index.toNat then byte else r.packet i
    index := if r.index + 1 = 10 then 0 else r.index + 1 }

/-- An opcode; a download is left to the other states. -/
def opcode (byte : Byte) (r : Receiver) : Receiver :=
  if byte = 0 ∨ byte = 0xff ∨ byte = 0x55 then r
  else
    { state :=
        if parameters byte = 0 then 4
        else if byte &&& 0xf7 = 0x45 then 6
        else 3
      expect := 1
      last := byte
      chksum := byte
      remaining :=
        if parameters byte ≠ 0 ∧ byte &&& 0xf7 = 0x45 then 4
        else parameters byte
      index := 1
      valid := r.valid
      packet := fun i => if i.val = 0 then byte else r.packet i }

def operand (byte : Byte) (r : Receiver) : Receiver :=
  { r.store byte with
    state := if r.remaining - 1 = 0 then 4 else r.state
    expect := 1
    last := byte
    chksum := r.chksum + byte
    remaining := r.remaining - 1 }

def checksum (byte : Byte) (r : Receiver) : Receiver :=
  let r := { r.store byte with expect := 1, last := byte }
  if r.chksum = byte then { r with state := 99 } else r.reset

def complement (byte : Byte) (r : Receiver) : Receiver :=
  let r := { r with expect := 0 }
  if r.last ≠ ~~~byte then r.reset
  else if r.state = 99 then { r.reset with valid := 1 }
  else r

/-- What the handler does outside a download. -/
def step (byte : Byte) (r : Receiver) : Receiver :=
  if r.expect ≠ 0 then r.complement byte
  else if r.state = 2 then r.opcode byte
  else if r.state = 3 then r.operand byte
  else if r.state = 4 then r.checksum byte
  else r.reset

/-- The pause between two bytes was too long. -/
def paused (r : Receiver) : Receiver :=
  { r with state := 2, expect := 0, last := 0xff }

end Receiver

/-- Headers and complements are in use, and the addresses that the routines
were given lie outside their variables. -/
structure InUse (m : Ram) : Prop where
  header : m serialHasPacketHeader ≠ 0
  complement : m serialUseComplement ≠ 0
  timer : ¬ InBlock (m.get16 serialTimerStruct)
  timer' : ¬ InBlock (m.get16 serialTimerStruct + 1)
  runFlag : ¬ InBlock (m.get16 serialHandlerRunFlagAddr)

section Steps

variable {m : Ram} {byte : Byte}

theorem rxiRestart_apply (h : InUse m) {a : Word} (ha : InBlock a) :
    rxiRestart m a =
      if resetCounter m = 0 then
        (((m.set serialExpectComplement 0).set serialReceiveState 2).set
          serialLastReceivedByte 0xff) a
      else m a := by
  have hne : a ≠ m.get16 serialTimerStruct := by
    rintro rfl
    exact h.timer ha
  have hne' : a ≠ m.get16 serialTimerStruct + 1 := by
    rintro rfl
    exact h.timer' ha
  rw [rxiRestart, Ram.set16_of_ne hne hne']
  split_ifs <;> rfl

theorem receiver_rxiRestart (h : InUse m) :
    (rxiRestart m).receiver =
      if resetCounter m = 0 then m.receiver.paused else m.receiver := by
  simp (disch := first | decide | exact inBlock_packetCell _) only
    [Ram.receiver, rxiRestart_apply h]
  split_ifs
  · simp (disch := first | decide | (apply packetCell_ne; decide)) only
      [Receiver.paused, Ram.set_self, Ram.set_of_ne]
  · rfl

theorem receiver_rxiResetState (m : Ram) :
    (rxiResetState m).receiver = m.receiver.reset := by
  simp (disch := first | decide | (apply packetCell_ne; decide)) only
    [Ram.receiver, rxiResetState, Receiver.reset, Ram.set_self, Ram.set_of_ne]

theorem markValid_apply (hflag : ¬ InBlock (m.get16 serialHandlerRunFlagAddr))
    {a : Word} (ha : InBlock a) :
    markValid m a = (m.set serialValidIncomingData 1) a := by
  have hsame : (m.set serialValidIncomingData 1).get16
      serialHandlerRunFlagAddr = m.get16 serialHandlerRunFlagAddr :=
    Ram.get16_set_of_ne (by decide) (by decide)
  have hother : a ≠ m.get16 serialHandlerRunFlagAddr := by
    rintro rfl
    exact hflag ha
  simp only [markValid, hsame]
  rw [Ram.set_of_ne hother]

theorem receiver_markValid
    (hflag : ¬ InBlock (m.get16 serialHandlerRunFlagAddr)) :
    (markValid m).receiver = { m.receiver with valid := 1 } := by
  simp (disch := first | decide | exact inBlock_packetCell _) only
    [Ram.receiver, markValid_apply hflag]
  simp (disch := first | decide | (apply packetCell_ne; decide)) only
    [Ram.set_self, Ram.set_of_ne]

theorem receiver_rxiState2 (hheader : m serialHasPacketHeader ≠ 0) :
    (rxiState2 byte m).receiver = m.receiver.opcode byte := by
  unfold rxiState2 Receiver.opcode
  by_cases hskip : byte = 0 ∨ byte = 0xff ∨ byte = 0x55
  · rw [if_pos ⟨hheader, hskip⟩, if_pos hskip]
  · rw [if_neg (fun h => hskip h.2), if_neg hskip]
    simp only
    by_cases hnone : parameters byte = 0
    · rw [if_pos hnone, if_pos hnone, if_neg (fun h => h.1 hnone)]
      simp (disch := first | decide | (apply packetCell_ne; decide)) only
        [Ram.receiver, Ram.set_self, Ram.set_of_ne, set_packet_first]
    · rw [if_neg hnone, if_neg hnone]
      by_cases hdata : byte &&& 0xf7 = 0x45
      · rw [if_pos hdata, if_pos hdata, if_pos ⟨hnone, hdata⟩]
        simp (disch := first | decide | (apply packetCell_ne; decide)) only
          [Ram.receiver, Ram.set_self, Ram.set_of_ne, set_packet_first]
      · rw [if_neg hdata, if_neg hdata, if_neg (fun h => hdata h.2)]
        simp (disch := first | decide | (apply packetCell_ne; decide)) only
          [Ram.receiver, Ram.set_self, Ram.set_of_ne, set_packet_first]

theorem receiver_storeIncoming
    (hindex : Placed (m serialReceiveIndex)) :
    (storeIncoming byte m).receiver = m.receiver.store byte := by
  simp (disch := first | decide | assumption) only [Ram.receiver,
    storeIncoming_var, storeIncoming_index, storeIncoming_packet,
    Receiver.store]
  rfl

/-- The variables that follow a stored byte. -/
theorem receiver_set_last (m : Ram) (byte expect : Byte) :
    ((m.set serialLastReceivedByte byte).set serialExpectComplement
        expect).receiver =
      { m.receiver with last := byte, expect := expect } := by
  simp (disch := first | decide | (apply packetCell_ne; decide)) only
    [Ram.receiver, Ram.set_self, Ram.set_of_ne]

theorem receiver_rxiState3 (hindex : Placed (m serialReceiveIndex)) :
    (rxiState3 byte m).receiver = m.receiver.operand byte := by
  have hstore := @receiver_storeIncoming m byte hindex
  have hsum : storeIncoming byte m serialReceiveChksum =
      m serialReceiveChksum :=
    storeIncoming_var (by decide) (by decide) (by decide) hindex
  have hremaining : storeIncoming byte m serialReceiveLengthRemaining =
      m serialReceiveLengthRemaining :=
    storeIncoming_var (by decide) (by decide) (by decide) hindex
  unfold Receiver.operand
  rw [← hstore]
  simp (disch := decide) only [rxiState3, Ram.set_of_ne, hsum, hremaining]
  have hlast : m.receiver.remaining = m serialReceiveLengthRemaining := rfl
  rw [hlast]
  split_ifs
  · simp (disch := first | decide | (apply packetCell_ne; decide)) only
      [Ram.receiver, Ram.set_self, Ram.set_of_ne]
  · simp (disch := first | decide | (apply packetCell_ne; decide)) only
      [Ram.receiver, Ram.set_self, Ram.set_of_ne,
        @storeIncoming_var m serialReceiveState byte (by decide) (by decide)
          (by decide) hindex]

theorem receiver_rxiState4 (hindex : Placed (m serialReceiveIndex))
    (hcomplement : m serialUseComplement ≠ 0) :
    (rxiState4 byte m).receiver = m.receiver.checksum byte := by
  have hstore := @receiver_storeIncoming m byte hindex
  have hsum : storeIncoming byte m serialReceiveChksum =
      m serialReceiveChksum :=
    storeIncoming_var (by decide) (by decide) (by decide) hindex
  have huse : storeIncoming byte m serialUseComplement =
      m serialUseComplement :=
    storeIncoming_var (by decide) (by decide) (by decide) hindex
  have hlast := receiver_set_last (storeIncoming byte m) byte 1
  rw [hstore] at hlast
  simp (disch := decide) only [rxiState4, Ram.set_of_ne, hsum, huse,
    if_pos hcomplement]
  unfold Receiver.checksum
  by_cases hequal : m serialReceiveChksum = byte
  · rw [if_pos hequal, if_pos (by exact hequal), ← hlast]
    simp (disch := first | decide | (apply packetCell_ne; decide)) only
      [Ram.receiver, Ram.set_self, Ram.set_of_ne]
  · rw [if_neg hequal, if_neg (by exact hequal), receiver_rxiResetState, hlast]

theorem receiver_rxiComplement
    (hflag : ¬ InBlock (m.get16 serialHandlerRunFlagAddr)) :
    (rxiComplement byte m).receiver = m.receiver.complement byte := by
  have hexpect : (m.set serialExpectComplement 0).receiver =
      { m.receiver with expect := 0 } := by
    simp (disch := first | decide | (apply packetCell_ne; decide)) only
      [Ram.receiver, Ram.set_self, Ram.set_of_ne]
  have hflag' : ¬ InBlock ((m.set serialExpectComplement 0).get16
      serialHandlerRunFlagAddr) := by
    rw [Ram.get16_set_of_ne (by decide) (by decide)]
    exact hflag
  have hlast : (m.set serialExpectComplement 0) serialLastReceivedByte =
      m.receiver.last := Ram.set_of_ne (by decide)
  have hstate : (m.set serialExpectComplement 0) serialReceiveState =
      m.receiver.state := Ram.set_of_ne (by decide)
  simp only [rxiComplement, Receiver.complement]
  rw [hlast, hstate]
  split_ifs
  · rw [receiver_rxiResetState, hexpect]
  · rw [receiver_rxiResetState, receiver_markValid hflag', hexpect]
    rfl
  · exact hexpect

/-- The receiver after the look at the counter. -/
def Ram.entered (m : Ram) : Receiver :=
  if resetCounter m = 0 then m.receiver.paused else m.receiver

theorem rxiRestart_config (h : InUse m) {a : Word} (ha : InBlock a)
    (hexpect : a ≠ serialExpectComplement) (hstate : a ≠ serialReceiveState)
    (hlast : a ≠ serialLastReceivedByte) : rxiRestart m a = m a := by
  rw [rxiRestart_apply h ha]
  split_ifs
  · rw [Ram.set_of_ne hlast, Ram.set_of_ne hstate, Ram.set_of_ne hexpect]
  · rfl

theorem rxiDispatch_receiver (hheader : m serialHasPacketHeader ≠ 0)
    (hcomplement : m serialUseComplement ≠ 0)
    (hindex : m.receiver.state = 3 ∨ m.receiver.state = 4 →
      Placed m.receiver.index)
    (hdata : m.receiver.state ≠ 5 ∧ m.receiver.state ≠ 6)
    (hexpect : m.receiver.expect = 0) :
    (rxiDispatch byte m).receiver = m.receiver.step byte := by
  have hstate : m serialReceiveState = m.receiver.state := rfl
  unfold rxiDispatch Receiver.step
  rw [if_neg (not_not.mpr hexpect), hstate]
  by_cases h2 : m.receiver.state = 2
  · rw [h2, if_pos rfl]
    exact receiver_rxiState2 hheader
  · rw [if_neg h2]
    by_cases h3 : m.receiver.state = 3
    · rw [h3, if_pos rfl]
      exact receiver_rxiState3 (hindex (Or.inl h3))
    · rw [if_neg h3]
      by_cases h4 : m.receiver.state = 4
      · rw [h4, if_pos rfl]
        exact receiver_rxiState4 (hindex (Or.inr h4)) hcomplement
      · rw [if_neg h4]
        split
        · next heq => exact absurd (BitVec.eq_of_toNat_eq heq) h2
        · next heq => exact absurd (BitVec.eq_of_toNat_eq heq) h3
        · next heq => exact absurd (BitVec.eq_of_toNat_eq heq) h4
        · next heq => exact absurd (BitVec.eq_of_toNat_eq heq) hdata.1
        · next heq => exact absurd (BitVec.eq_of_toNat_eq heq) hdata.2
        · exact receiver_rxiResetState m

/-- Outside a download the handler is the machine on its variables. -/
theorem receiver_rxiHandler (h : InUse m) (hidle : m serialXmitFlag = 0x4f)
    (hindex : m.entered.state = 3 ∨ m.entered.state = 4 →
      Placed m.entered.index)
    (hdata : m.entered.state ≠ 5 ∧ m.entered.state ≠ 6) :
    (rxiHandler byte m).receiver = m.entered.step byte := by
  have hflag : ¬ m serialXmitFlag - 0x4f ≠ 0 := by
    rw [hidle]
    decide
  have hentered : (rxiRestart m).receiver = m.entered := receiver_rxiRestart h
  have hheader : rxiRestart m serialHasPacketHeader ≠ 0 := by
    rw [rxiRestart_config h (by decide) (by decide) (by decide) (by decide)]
    exact h.header
  have hcomplement : rxiRestart m serialUseComplement ≠ 0 := by
    rw [rxiRestart_config h (by decide) (by decide) (by decide) (by decide)]
    exact h.complement
  have hrun : (rxiRestart m).get16 serialHandlerRunFlagAddr =
      m.get16 serialHandlerRunFlagAddr := by
    rw [Ram.get16, Ram.get16,
      rxiRestart_config h (by decide) (by decide) (by decide) (by decide),
      rxiRestart_config h (by decide) (by decide) (by decide) (by decide)]
  have hexpect : rxiRestart m serialExpectComplement = m.entered.expect :=
    congrArg Receiver.expect hentered
  simp only [rxiHandler, if_neg hflag]
  rw [hexpect]
  by_cases hwait : m.entered.expect ≠ 0
  · rw [if_pos ⟨hcomplement, hwait⟩, receiver_rxiComplement (hrun ▸ h.runFlag),
      hentered, Receiver.step, if_pos hwait]
  · rw [if_neg (fun hboth => hwait hboth.2), rxiDispatch_receiver hheader
      hcomplement (hentered ▸ hindex) (hentered ▸ hdata)
      (hentered ▸ not_not.mp hwait), hentered]

end Steps

end Rom

end BrickEmu
