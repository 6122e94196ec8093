import BrickEmu.RomSerial

/-!
# The main loop of the ROM

`main_loop` and `update` of `rom.s` as far as they decide on starting the
firmware.  Every access to a variable that an interrupt shares is a step of its
own.  The texts of the replies, the display, the sounds and the keys are left
out; what they write does not concern the firmware.
-/

namespace BrickEmu

namespace Rom

section Variables

def romMainLoopState : Word := 0xee5e
def firmwareEntry : Word := 0xee62
def firmwareHoldoffTimer : Word := 0xee82
def romReadyToSleep : Word := 0xeeb4
def romReceiveBuffer : Word := 0xeef6
def romUpdateState : Word := 0xef06
def romTransferDataIndex : Word := 0xef0a
def lastReceivedOpcode : Word := 0xef0c
def soundPlaying : Word := 0xefff
def highFirmwareChecksum : Word := 0xfd88
def highFirmwareChecksumInv : Word := 0xfd8a
def highFirmwareEntry : Word := 0xfd8c
def romHandlerStruct : Word := 0xee64
def romTimerStruct : Word := 0xee74

end Variables

section Interrupts

/-- A receive error starts over outside a download. -/
def eriHandler (m : Ram) : Ram :=
  let m :=
    if m serialReceiveState - 5 ≤ 1 then m else m.set serialReceiveState 2
  m.set16 (m.get16 serialTimerStruct) 30

/-- The bytes from an address up to another one are cleared. -/
def memclr (m : Ram) (start : Word) : ℕ → Ram
  | 0 => m
  | n + 1 => (memclr m start n).set (start + BitVec.ofNat 16 n) 0

/-- `init_serial` as `init_handlers` calls it. -/
def initSerial (m : Ram) : Ram :=
  let m := m.set serialHasPacketHeader 1
  let m := m.set serialUseComplement 1
  let m := m.set serialExpectComplement 0
  let m := m.set16 serialHandlerRunFlagAddr romHandlerStruct
  let m := m.set serialValidIncomingData 0
  let m := m.set serialLastReceivedByte 0xff
  let m := m.set16 serialTransferSequenceNumber 0xffff
  let m := m.set serialReceiveState 2
  let m := m.set16 serialTimerStruct romTimerStruct
  let m := memclr m serialOutgoingPacket 64
  let m := memclr m serialIncomingPacket 16
  let m := m.set16 serialOutRemaining 0
  let m := m.set16 serialIncomingDataptr 0
  let m := m.set serialReceiveIndex 0
  let m := m.set serialUnpackIndex 0
  let m := m.set serialSendIndex 0
  m.set serialXmitFlag 0x4f

end Interrupts

/-- Where the main loop stands, with the registers in use there. -/
inductive Place where
  | boot (counter : Byte)
  | mainLoop
  | holdoff
  | launch
  | started
  | init
  | update
  | check (addr sum : Word)
  | compare (sum : Word)
  | compareInverse (sum : Word)
  | verdict (good : Bool)
  | unlock
  | receiveData
  | receiveFrom (stop : Byte)
  | receiveLoop (stop : Byte) (r4 : Word) (count : ℕ)
  | receiveEnd (r4 : Word)
  | message
  | startDownload
  | downloadNumber
  | downloadPtr
  | clear (r1 : Word)
  | transfer
  | transferDone
  | reply (following : Byte)
  | ending
  | returned
  deriving DecidableEq

/-- The main loop with the memory.  `asleep` tells the call of `update` in
state 8 from the other one, and `announced` is the checksum of the last start
of a download. -/
structure Conf where
  place : Place
  asleep : Bool
  ram : Ram
  announced : Word

namespace Conf

def goto (place : Place) (c : Conf) : Conf :=
  { c with place := place }

def store (addr : Word) (val : Byte) (c : Conf) : Conf :=
  { c with ram := c.ram.set addr val }

def store16 (addr val : Word) (c : Conf) : Conf :=
  { c with ram := c.ram.set16 addr val }

/-- The end of a state of `update`. -/
def become (state : Byte) (c : Conf) : Conf :=
  (c.store romUpdateState state).goto .ending

/-- The head of `main_loop`. -/
def mainLoop (c : Conf) : Conf :=
  let state := c.ram romMainLoopState
  if state = 0x13 then c.goto .holdoff
  else if state = 0 then c.goto .init
  else { c with place := .update, asleep := state = 8 }

/-- The switch of `update`. -/
def update (c : Conf) : Conf :=
  match (c.ram romUpdateState).toNat with
  | 0 => c.become 7
  | 1 => c.goto (.check 0x8000 0)
  | 2 => if c.ram serialValidIncomingData = 0 then c.goto .ending else c.become 4
  | 3 => c.goto .unlock
  | 4 => c.goto .receiveData
  | 5 => c.goto (.reply 2)
  | 6 => c.goto (.reply 1)
  | 7 => c.become 2
  | _ => c.goto .ending

/-- One byte of the firmware is added. -/
def check (addr sum : Word) (c : Conf) : Conf :=
  let sum := sum + (c.ram addr).setWidth 16
  if addr + 1 = 0xcc00 then c.goto (.compare sum)
  else c.goto (.check (addr + 1) sum)

/-- The reply to the unlock message is on its way: the firmware may start
after a while. -/
def unlock (c : Conf) : Conf :=
  if c.ram serialXmitFlag ≠ 0x4f then c.goto .ending
  else
    let c := c.store serialXmitFlag 0x13
    let c := c.store16 firmwareHoldoffTimer 30
    let c := c.store16 firmwareEntry (c.ram.get16 highFirmwareEntry)
    let c := c.store romMainLoopState 0x13
    c.become 8

/-- The loop of `receive_data` over the ring. -/
def receiveLoop (stop : Byte) (r4 : Word) (count : ℕ) (c : Conf) : Conf :=
  if 10 ≤ count ∨ r4.extractLsb' 0 8 = stop then c.goto (.receiveEnd r4)
  else
    let byte := c.ram (serialIncomingPacket + r4)
    let c := c.store (romReceiveBuffer + BitVec.ofNat 16 count) byte
    let r4 := r4 + 1
    let r4 := if r4.extractLsb' 0 8 = 10#8 then r4 &&& 0xff00 else r4
    c.goto (.receiveLoop stop r4 (count + 1))

def message (c : Conf) : Conf :=
  let opcode := c.ram romReceiveBuffer
  if opcode = c.ram lastReceivedOpcode then c.become 5
  else
    let c := c.store lastReceivedOpcode opcode
    match (opcode &&& 0xf7).toNat with
    | 0x10 | 0x15 | 0x65 => c.become 5
    | 0x75 => c.goto .startDownload
    | 0x45 => c.goto .transfer
    | 0xa5 => c.become 1
    | _ => c.become 2

/-- A word of the message in the buffer, low byte first. -/
def word (i : Word) (c : Conf) : Word :=
  c.ram (romReceiveBuffer + i + 1) ++ c.ram (romReceiveBuffer + i)

def startDownload (c : Conf) : Conf :=
  let checksum := c.word 3
  let c := c.store16 highFirmwareEntry (c.word 1)
  let c := c.store16 highFirmwareChecksum checksum
  let c := c.store16 highFirmwareChecksumInv (~~~checksum)
  { c with place := .downloadNumber, announced := checksum }

/-- `memclr` goes down from the end of the firmware. -/
def clear (r1 : Word) (c : Conf) : Conf :=
  if r1 = 0x8000 then (c.store16 romTransferDataIndex 1).become 5
  else (c.store (r1 - 1) 0).goto (.clear (r1 - 1))

def transfer (c : Conf) : Conf :=
  if c.word 1 = 0 then c.goto .transferDone
  else if c.word 1 ≠ c.ram.get16 romTransferDataIndex then c.become 2
  else (c.store16 romTransferDataIndex (c.word 1 + 1)).become 5

/-- `send_packet` refuses while it is sending. -/
def reply (following : Byte) (c : Conf) : Conf :=
  if c.ram serialXmitFlag ≠ 0x4f then c.goto .ending
  else (c.store serialXmitFlag 0x13).become following

/-- After `update`: in state 8 the brick may go to sleep. -/
def returned (c : Conf) : Conf :=
  if c.asleep ∧ c.ram soundPlaying = 0 ∧ c.ram romReadyToSleep ≠ 0 then
    (c.store romMainLoopState 0).goto .init
  else c.goto .mainLoop

def init (state : Byte) (place : Place) (c : Conf) : Conf :=
  let ram := (initSerial c.ram).set romUpdateState 0
  { c with
    place := place
    asleep := false
    ram := ram.set romMainLoopState state }

/-- The next instructions of the main loop. -/
def next (c : Conf) : Conf :=
  match c.place with
  | .boot counter =>
      if counter = 0 then c.init 8 .mainLoop
      else (c.store romMainLoopState 0).goto .mainLoop
  | .mainLoop => c.mainLoop
  | .holdoff =>
      if c.ram.get16 firmwareHoldoffTimer ≠ 0 then c.goto .mainLoop
      else c.goto .launch
  | .launch => c.goto .started
  | .started => c
  | .init => c.init 0xd .update
  | .update => c.update
  | .check addr sum => c.check addr sum
  | .compare sum =>
      if sum = c.ram.get16 highFirmwareChecksum then
        c.goto (.compareInverse sum)
      else c.goto (.verdict false)
  | .compareInverse sum =>
      c.goto (.verdict
        (c.ram.get16 highFirmwareChecksumInv + 1 + sum = 0))
  | .verdict good =>
      if good then c.become 3
      else (c.store lastReceivedOpcode 0xff).become 2
  | .unlock => c.unlock
  | .receiveData => c.goto (.receiveFrom (c.ram serialReceiveIndex))
  | .receiveFrom stop =>
      c.goto (.receiveLoop stop ((c.ram serialUnpackIndex).setWidth 16) 0)
  | .receiveLoop stop r4 count => c.receiveLoop stop r4 count
  | .receiveEnd r4 =>
      ((c.store serialUnpackIndex (r4.extractLsb' 0 8)).store
        serialValidIncomingData (r4.extractLsb' 8 8)).goto .message
  | .message => c.message
  | .startDownload => c.startDownload
  | .downloadNumber =>
      (c.store16 serialTransferSequenceNumber 0xffff).goto .downloadPtr
  | .downloadPtr =>
      (c.store16 serialIncomingDataptr 0x8000).goto (.clear 0xcc00)
  | .clear r1 => c.clear r1
  | .transfer => c.transfer
  | .transferDone => (c.store16 serialIncomingDataptr 0).become 5
  | .reply following => c.reply following
  | .ending => c.goto .returned
  | .returned => c.returned

end Conf

section Runs

/-- The cells that the other routines and interrupts leave alone. -/
def Guarded (addr : Word) : Prop :=
  let a := addr.toNat
  0x8000 ≤ a ∧ a < 0xcc00 ∨ a = 0xee5e ∨ 0xee62 ≤ a ∧ a < 0xee64 ∨
    0xeef6 ≤ a ∧ a < 0xef00 ∨ a = 0xef06 ∨ 0xef0a ≤ a ∧ a < 0xef0d ∨
    0xef50 ≤ a ∧ a < 0xef52 ∨ 0xef9d ≤ a ∧ a < 0xefc6 ∨
    0xfd88 ≤ a ∧ a < 0xfd8e

instance (addr : Word) : Decidable (Guarded addr) :=
  inferInstanceAs (Decidable (_ ∨ _))

/-- What the display, the sounds, the keys, the timers and the transmitter
may do. -/
structure Aside (m m' : Ram) : Prop where
  guarded : ∀ addr, Guarded addr → m' addr = m addr
  xmitFlag : m' serialXmitFlag = 0x4f ∨ m' serialXmitFlag = 0x13

inductive Event where
  | main
  | aside (m' : Ram)
  | sleep
  | received (byte : Byte)
  | error

/-- `init_serial` has set up the receiver: it is called at the start or, with
the main loop in state 0, before anything else. -/
def Conf.Listening (c : Conf) : Prop :=
  c.place ≠ .started ∧ c.place ≠ .init ∧ (∀ counter, c.place ≠ .boot counter) ∧
    (c.place = .mainLoop → c.ram romMainLoopState ≠ 0)

/-- The keys and the power-off timer are looked at before `update` returns. -/
def Conf.Possible (c : Conf) : Event → Prop
  | .main => c.place ≠ .started
  | .aside m' => c.place ≠ .started ∧ Aside c.ram m'
  | .sleep => c.place = .ending
  | .received _ | .error => c.Listening

def Conf.after (c : Conf) : Event → Conf
  | .main => c.next
  | .aside m' => { c with ram := m' }
  | .sleep => c.store romMainLoopState 8
  | .received byte => { c with ram := rxiHandler byte c.ram }
  | .error => { c with ram := eriHandler c.ram }

def Step (c c' : Conf) : Prop :=
  ∃ event, c.Possible event ∧ c' = c.after event

end Runs

end Rom

end BrickEmu
