import BrickEmu.HostInteger
import Mathlib.Tactic

/-!
# The infrared routines of the ROM

`send_packet` and the receive interrupt of `rom.s` as functions on the memory,
which holds their variables.  The registers of the serial port are left out but
for the byte received.
-/

namespace BrickEmu

namespace Rom

/-- The memory of the brick, by address. -/
abbrev Ram : Type := Word → Byte

namespace Ram

def set (m : Ram) (addr : Word) (val : Byte) : Ram :=
  Function.update m addr val

def get16 (m : Ram) (addr : Word) : Word :=
  m addr ++ m (addr + 1)

def set16 (m : Ram) (addr : Word) (val : Word) : Ram :=
  (m.set addr (val.extractLsb' 8 8)).set (addr + 1) (val.extractLsb' 0 8)

/-- The bytes from an address on. -/
def bytes (m : Ram) : Word → ℕ → List Byte
  | _, 0 => []
  | addr, n + 1 => m addr :: m.bytes (addr + 1) n

variable {m : Ram} {a b : Word} {val : Byte}

theorem set_self (m : Ram) (a : Word) (val : Byte) :
    (m.set a val) a = val :=
  Function.update_self ..

theorem set_of_ne (h : b ≠ a) : (m.set a val) b = m b :=
  Function.update_of_ne h ..

theorem get16_set_of_ne (h : b ≠ a) (h' : b + 1 ≠ a) :
    (m.set a val).get16 b = m.get16 b := by
  rw [Ram.get16, Ram.set_of_ne h, Ram.set_of_ne h']
  rfl

theorem set16_of_ne {val : Word} (h : b ≠ a) (h' : b ≠ a + 1) :
    (m.set16 a val) b = m b := by
  rw [Ram.set16, Ram.set_of_ne h', Ram.set_of_ne h]

theorem addr_succ (addr : Word) (i : ℕ) :
    addr + BitVec.ofNat 16 (i + 1) = addr + 1 + BitVec.ofNat 16 i := by
  rw [BitVec.ofNat_add, BitVec.add_comm (BitVec.ofNat 16 i), BitVec.add_assoc]
  rfl

theorem bytes_length (m : Ram) (addr : Word) (n : ℕ) :
    (m.bytes addr n).length = n := by
  induction n generalizing addr with
  | zero => rfl
  | succ n ih => rw [Ram.bytes, List.length_cons, ih]

theorem bytes_getElem? (m : Ram) (addr : Word) {n i : ℕ} (hi : i < n) :
    (m.bytes addr n)[i]? = some (m (addr + BitVec.ofNat 16 i)) := by
  induction n generalizing addr i with
  | zero => omega
  | succ n ih =>
      cases i with
      | zero =>
          rw [BitVec.add_zero]
          rfl
      | succ i =>
          rw [Ram.bytes, List.getElem?_cons_succ, ih _ (by omega), addr_succ]

end Ram

theorem succ_ne_self (a : Word) : a + 1 ≠ a := by
  intro heq
  have hzero : (1 : Word) = 0 := BitVec.add_right_eq_self.mp heq
  exact absurd hzero (by decide)

theorem set16_get16 (m : Ram) (a : Word) : m.set16 a (m.get16 a) = m := by
  have hhigh : (m.get16 a).extractLsb' 8 8 = m a :=
    BitVec.extractLsb'_append_eq_left
  have hlow : (m.get16 a).extractLsb' 0 8 = m (a + 1) :=
    BitVec.extractLsb'_append_eq_right
  rw [Ram.set16, hhigh, hlow, Ram.set, Ram.set, Function.update_eq_self,
    Function.update_eq_self]

theorem get16_set16 (m : Ram) (a val : Word) :
    (m.set16 a val).get16 a = val := by
  rw [Ram.get16, Ram.set16, Ram.set_self, Ram.set_of_ne (succ_ne_self a).symm,
    Ram.set_self]
  exact BitVec.extractLsb'_append_extractLsb'

section Variables

def serialHasPacketHeader : Word := 0xef50
def serialUseComplement : Word := 0xef51
def serialOutgoingPacket : Word := 0xef52
def serialSendIndex : Word := 0xef92
def serialXmitFlag : Word := 0xef93
def serialOutPackettype : Word := 0xef94
def serialOutRemaining : Word := 0xef96
def serialOutPacketptr : Word := 0xef98
def serialOutHeaderbyte : Word := 0xef9a
def serialOutChksum : Word := 0xef9b
def serialOutComplement : Word := 0xef9c
def serialIncomingPacket : Word := 0xef9d
def serialIncomingDataptr : Word := 0xefae
def serialReceiveIndex : Word := 0xefb0
def serialUnpackIndex : Word := 0xefb1
def serialReceiveState : Word := 0xefb2
def serialExpectComplement : Word := 0xefb3
def serialTimerStruct : Word := 0xefb4
def serialValidIncomingData : Word := 0xefb6
def serialHandlerRunFlagAddr : Word := 0xefb8
def serialLastReceivedByte : Word := 0xefba
def serialTransferSequenceNumber : Word := 0xefbc
def serialReceiveChksum : Word := 0xefbe
def serialReceiveDataChksum : Word := 0xefbf
def serialReceiveLengthRemaining : Word := 0xefc0
def serialReceiveDataLength : Word := 0xefc2
def serialSavedDataptr : Word := 0xefc4

end Variables

section Receive

/-- The number of parameters that belong to an opcode. -/
def parameters (opcode : Byte) : Byte :=
  if opcode &&& 7 < 6 then opcode &&& 7 else (opcode &&& 7) - 6

def rxiResetState (m : Ram) : Ram :=
  (m.set serialReceiveState 2).set serialLastReceivedByte 0xff

/-- A valid packet: the flag for the main loop and that of its handler. -/
def markValid (m : Ram) : Ram :=
  let m := m.set serialValidIncomingData 1
  let flag := m.get16 serialHandlerRunFlagAddr
  m.set flag (m flag ||| 0x80)

/-- Appends a byte to the ring of ten bytes. -/
def storeIncoming (byte : Byte) (m : Ram) : Ram :=
  let index := m serialReceiveIndex
  let m := m.set (serialIncomingPacket + index.setWidth 16) byte
  m.set serialReceiveIndex (if index + 1 = 10 then 0 else index + 1)

def rxiState2 (byte : Byte) (m : Ram) : Ram :=
  if m serialHasPacketHeader ≠ 0 ∧ (byte = 0 ∨ byte = 0xff ∨ byte = 0x55) then m
  else
    let m := m.set serialUnpackIndex 0
    let m := m.set serialReceiveIndex 1
    let m := m.set serialIncomingPacket byte
    let m := m.set serialReceiveLengthRemaining (parameters byte)
    let m := m.set serialLastReceivedByte byte
    let m := m.set serialReceiveChksum byte
    let m := m.set serialExpectComplement 1
    if parameters byte = 0 then m.set serialReceiveState 4
    else if byte &&& 0xf7 = 0x45 then
      let m := m.set serialReceiveState 6
      let m := m.set serialReceiveDataChksum 0
      m.set serialReceiveLengthRemaining 4
    else m.set serialReceiveState 3

def rxiState3 (byte : Byte) (m : Ram) : Ram :=
  let m := storeIncoming byte m
  let m := m.set serialLastReceivedByte byte
  let m := m.set serialReceiveChksum (m serialReceiveChksum + byte)
  let m := m.set serialExpectComplement 1
  let remaining := m serialReceiveLengthRemaining - 1
  let m := m.set serialReceiveLengthRemaining remaining
  if remaining = 0 then m.set serialReceiveState 4 else m

def rxiState4 (byte : Byte) (m : Ram) : Ram :=
  let m := storeIncoming byte m
  let m := m.set serialLastReceivedByte byte
  let m := m.set serialExpectComplement 1
  if m serialReceiveChksum = byte then
    if m serialUseComplement ≠ 0 then m.set serialReceiveState 99
    else rxiResetState (markValid m)
  else rxiResetState m

def rxiState5 (byte : Byte) (m : Ram) : Ram :=
  let m := storeIncoming byte m
  let m := m.set serialLastReceivedByte byte
  let m := m.set serialReceiveChksum (m serialReceiveChksum + byte)
  let m := storeIncoming (m serialReceiveDataChksum) m
  let m := m.set serialExpectComplement 1
  m.set serialReceiveState 4

/-- The header of a block of data: a repeated block is stored over the one
before. -/
def evaluateHeader (m : Ram) : Ram :=
  let number := m (serialIncomingPacket + 2) ++ m (serialIncomingPacket + 1)
  let m :=
    if m.get16 serialTransferSequenceNumber = number then
      m.set16 serialIncomingDataptr (m.get16 serialSavedDataptr)
    else
      let m := m.set16 serialTransferSequenceNumber number
      m.set16 serialSavedDataptr (m.get16 serialIncomingDataptr)
  m.set16 serialReceiveDataLength
    (m (serialIncomingPacket + 4) ++ m (serialIncomingPacket + 3))

/-- The data go straight to the memory. -/
def storeData (byte : Byte) (m : Ram) : Ram :=
  let dataptr := m.get16 serialIncomingDataptr
  let m :=
    if dataptr = 0 then m
    else
      let m := m.set dataptr byte
      let m := m.set16 serialIncomingDataptr (dataptr + 1)
      m.set serialReceiveDataChksum (m serialReceiveDataChksum + byte)
  let length := m.get16 serialReceiveDataLength - 1
  let m := m.set16 serialReceiveDataLength length
  if length = 0 then m.set serialReceiveState 5 else m

/-- The first test reads the remaining length as a word. -/
def rxiState6 (byte : Byte) (m : Ram) : Ram :=
  let m := m.set serialLastReceivedByte byte
  let m := m.set serialReceiveChksum (m serialReceiveChksum + byte)
  let m :=
    if m.get16 serialReceiveLengthRemaining ≠ 0 then
      let m := storeIncoming byte m
      let remaining := m serialReceiveLengthRemaining - 1
      let m := m.set serialReceiveLengthRemaining remaining
      if remaining = 0 then evaluateHeader m else m
    else storeData byte m
  m.set serialExpectComplement 1

/-- The byte should be the complement of the one before. -/
def rxiComplement (byte : Byte) (m : Ram) : Ram :=
  let m := m.set serialExpectComplement 0
  if m serialLastReceivedByte ≠ ~~~byte then rxiResetState m
  else if m serialReceiveState = 99 then rxiResetState (markValid m)
  else m

def rxiDispatch (byte : Byte) (m : Ram) : Ram :=
  match (m serialReceiveState).toNat with
  | 2 => rxiState2 byte m
  | 3 => rxiState3 byte m
  | 4 => rxiState4 byte m
  | 5 => rxiState5 byte m
  | 6 => rxiState6 byte m
  | _ => rxiResetState m

/-- The counter that runs out when the sender pauses. -/
def resetCounter (m : Ram) : Word :=
  m.get16 (m.get16 serialTimerStruct)

/-- The start of a pass: the pause resets the state, and the counter starts
again. -/
def rxiRestart (m : Ram) : Ram :=
  let counter := resetCounter m
  let m' :=
    if counter = 0 then
      ((m.set serialExpectComplement 0).set serialReceiveState 2).set
        serialLastReceivedByte 0xff
    else m
  m'.set16 (m.get16 serialTimerStruct) (counter.extractLsb' 8 8 ++ 30#8)

/-- `rxi_handler` with the byte in the receive register. -/
def rxiHandler (byte : Byte) (m : Ram) : Ram :=
  let flag := m serialXmitFlag - 0x4f
  if flag ≠ 0 then
    (m.set serialUnpackIndex flag).set serialReceiveIndex flag
  else
    let m := rxiRestart m
    if m serialUseComplement ≠ 0 ∧ m serialExpectComplement ≠ 0 then
      rxiComplement byte m
    else rxiDispatch byte m

end Receive

section Send

/-- The loops over the message; `out` is the place in the outgoing packet and
`chksum` the sum so far. -/
def packMessage (complement : Bool) :
    ℕ → Word → Word → Byte → Ram → Word × Byte × Ram
  | 0, _, out, chksum, m => (out, chksum, m)
  | n + 1, addr, out, chksum, m =>
      let byte := m addr
      let m := m.set (serialOutgoingPacket + out) byte
      if complement then
        let m := m.set (serialOutgoingPacket + out + 1) (~~~byte)
        packMessage complement n (addr + 1) (out + 2) (chksum + byte) m
      else packMessage complement n (addr + 1) (out + 1) (chksum + byte) m

/-- The packet of a short message.  The length is counted down in a byte. -/
def packShort (addr length : Word) (m : Ram) : Ram :=
  let (out, m) :=
    if m serialHasPacketHeader ≠ 0 then
      (3#16, ((m.set serialOutgoingPacket 0x55).set
        (serialOutgoingPacket + 1) 0xff).set (serialOutgoingPacket + 2) 0x00)
    else (0#16, m)
  let count := length.toNat % 256
  let complement := m serialUseComplement ≠ 0
  let (out, chksum, m) :=
    packMessage complement (if count = 0 then 256 else count) addr out 0 m
  let m := m.set (serialOutgoingPacket + out) chksum
  let out := out + 1
  let (out, m) :=
    if complement then
      (out + 1, m.set (serialOutgoingPacket + out) (~~~chksum))
    else (out, m)
  m.set16 serialOutRemaining out

/-- The set-up for a long message, which `txi_handler` packs on the way. -/
def packLong (opcode : Byte) (addr length : Word) (m : Ram) : Ram :=
  let header : Byte := if m serialHasPacketHeader ≠ 0 then 5 else 0
  let m := m.set serialOutHeaderbyte header
  let count := length + 1
  let count := if m serialUseComplement ≠ 0 then count + count else count
  let m := m.set16 serialOutRemaining (count + header.setWidth 16)
  let m := m.set16 serialOutPacketptr addr
  let m := m.set serialOutChksum opcode
  m.set serialOutComplement 0

/-- `send_packet` with its three parameters on the stack and the result in
`r6l`. -/
def sendPacket (code opcode addr length : Word) (m : Ram) : Byte × Ram :=
  if m serialXmitFlag ≠ 0x4f then (0x4c, m)
  else if code.extractLsb' 8 8 ≠ 0x17#8 then (code.extractLsb' 0 8, m)
  else if code = 0x1775 ∨ code = 0x1776 then
    let m :=
      if code = 0x1775 then packShort addr length m
      else packLong (opcode.extractLsb' 0 8) addr length m
    let m := m.set16 serialOutPackettype code
    let m := m.set serialSendIndex 0
    (0, m.set serialXmitFlag 0x13)
  else (code.extractLsb' 0 8 - 0x76, m)

end Send

end Rom

end BrickEmu
