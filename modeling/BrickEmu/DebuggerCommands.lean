import BrickEmu.Debugger
import BrickEmu.Machine
import Mathlib.Data.BitVec

/-!
# The packet commands of the debugger

`db_parse_packet` acknowledges a packet with a good checksum and passes its
content to `db_handle_packet`, which executes the command and sends a reply.
A packet is the list of the bytes of `db_in_buffer` behind its `$`: the
content, the 0 that has replaced the `#`, and whatever earlier packets have
left there.  A list that is read past its end gives 0.

`addr`, `length` and `db_out_len` are 32-bit integers with wrap-around, and
an access to an array carries its index as an integer, so that indices before
and behind the array can be told.  The list of accesses is a history variable
that nothing reads.
-/

namespace BrickEmu

/-- An access to one of the arrays.  A store to `db_out_buffer` comes with
the value `db_out_len` has then. -/
inductive DbAccess where
  | memory (index : ℤ)
  | memtype (index : ℤ)
  | out (index outLen : ℤ)
  deriving DecidableEq

structure Monitor where
  machine : Machine
  dbRegisters : ℕ → Byte
  outBuffer : ℤ → Byte
  outLen : BitVec 32
  connected : Bool
  broken : Bool
  sent : List (List Byte)
  sigval : ℕ
  remoteDebug : Bool
  cont : Bool
  accesses : List DbAccess

def NUM_REGS : ℕ := 13
def NUM_REG_BYTES : ℕ := NUM_REGS * 4

def COMMA : Byte := 0x2c
def EQUALS : Byte := 0x3d

/-- The texts of the replies. -/
def OK : List Byte := [0x4f, 0x4b]
def E01 : List Byte := [0x45, 0x30, 0x31]
def E02 : List Byte := [0x45, 0x30, 0x32]
def E03 : List Byte := [0x45, 0x30, 0x33]

def hexchars : List Byte :=
  [0x30, 0x31, 0x32, 0x33, 0x34, 0x35, 0x36, 0x37, 0x38, 0x39,
    0x61, 0x62, 0x63, 0x64, 0x65, 0x66]

def bptype2mask : List Byte :=
  [MEMTYPE_BREAKPOINT, MEMTYPE_BREAKPOINT, MEMTYPE_WRITETRAP,
    MEMTYPE_READTRAP,
    MEMTYPE_BREAKPOINT ||| MEMTYPE_WRITETRAP ||| MEMTYPE_READTRAP,
    MEMTYPE_BREAKPOINT]

/-- The first letter of a packet. -/
inductive DbCommand where
  | signal
  | debug
  | readRegisters
  | writeRegisters
  | writeRegister
  | readMemory
  | writeMemory
  | step
  | resume
  | detach
  | setTraps
  | clearTraps
  | other
  deriving DecidableEq

def DbCommand.ofByte (ch : Byte) : DbCommand :=
  if ch = 0x3f then .signal
  else if ch = 0x64 then .debug
  else if ch = 0x67 then .readRegisters
  else if ch = 0x47 then .writeRegisters
  else if ch = 0x50 then .writeRegister
  else if ch = 0x6d then .readMemory
  else if ch = 0x4d then .writeMemory
  else if ch = 0x73 then .step
  else if ch = 0x63 then .resume
  else if ch = 0x44 then .detach
  else if ch = 0x5a then .setTraps
  else if ch = 0x7a then .clearTraps
  else .other

/-! ## Numbers in packets -/

/-- The two digits of a byte. -/
def hexPair (ch : Byte) : List Byte :=
  [hexchars.getD (ch >>> 4).toNat 0, hexchars.getD (ch % 16).toNat 0]

/-- The text `mem2hex` writes for the given bytes. -/
def mem2hex (bytes : List Byte) : List Byte :=
  bytes.flatMap hexPair

/-- The loop of `hex2mem`: the bytes of `count` pairs of digits. -/
def unhex : ℕ → List Byte → List Byte
  | 0, _ => []
  | count + 1, buf =>
      ((hex (buf.getD 0 0) <<< 4).setWidth 8 +
        (hex (buf.getD 1 0)).setWidth 8) :: unhex count (buf.drop 2)

/-- The bytes `hex2mem` stores.  The instruction that gdb takes for a
breakpoint is replaced. -/
def hex2mem (buf : List Byte) (count : ℕ) : List Byte :=
  if count = 2 ∧ buf.take 4 = [0x35, 0x37, 0x33, 0x30] then
    unhex count ([0x35, 0x66, 0x30, 0x63] ++ buf.drop 4)
  else unhex count buf

/-- The loop of `hexToInt`, with the number of digits, the value and the
rest of the packet. -/
def hexDigits : List Byte → ℕ → BitVec 32 → ℕ × BitVec 32 × List Byte
  | [], numChars, value => (numChars, value, [])
  | ch :: packet, numChars, value =>
      if ch ≠ 0 ∧ 0 ≤ (hex ch).toInt then
        hexDigits packet (numChars + 1) (value <<< 4 ||| hex ch)
      else (numChars, value, ch :: packet)

/-- `hexToInt`, which fails where it finds no digit. -/
def hexToInt (packet : List Byte) : Option (BitVec 32 × List Byte) :=
  let (numChars, value, packet) := hexDigits packet 0 0
  if numChars ≠ 0 then some (value, packet) else none

/-- A test `*packet++ == ch`. -/
def expect (ch : Byte) (packet : List Byte) : Option (List Byte) :=
  if packet.headD 0 = ch then some packet.tail else none

/-- `AA..AA,LLLL` -/
def parseRange (packet : List Byte) :
    Option (BitVec 32 × BitVec 32 × List Byte) := do
  let (addr, packet) ← hexToInt packet
  let packet ← expect COMMA packet
  let (length, packet) ← hexToInt packet
  return (addr, length, packet)

/-- `T,AA..AA,LLLL` -/
def parseTraps (packet : List Byte) :
    Option (BitVec 32 × BitVec 32 × BitVec 32) := do
  let (type, packet) ← hexToInt packet
  let packet ← expect COMMA packet
  let (addr, length, _) ← parseRange packet
  return (type, addr, length)

/-- `AA..AA,LLLL:` -/
def parseWrite (packet : List Byte) :
    Option (BitVec 32 × BitVec 32 × List Byte) := do
  let (addr, length, packet) ← parseRange packet
  let packet ← expect COLON packet
  return (addr, length, packet)

/-- `NN=`, where `NN` is the number of a register. -/
def parseRegister (packet : List Byte) :
    Option (BitVec 32 × List Byte) := do
  let (addr, packet) ← hexToInt packet
  let packet ← expect EQUALS packet
  if 0 ≤ addr.toInt ∧ addr.toInt < NUM_REGS then return (addr, packet)
  else none

/-- The bound check of the commands with an address and a length. -/
def rangeAllowed (addr length : BitVec 32) : Prop :=
  0 ≤ addr.toInt ∧ (addr + length).toInt ≤ 0xff88

instance (addr length : BitVec 32) : Decidable (rangeAllowed addr length) :=
  inferInstanceAs (Decidable (_ ∧ _))

namespace Monitor

/-! ## The output buffer -/

def log (access : DbAccess) (s : Monitor) : Monitor :=
  { s with accesses := s.accesses ++ [access] }

def storeOut (i : ℤ) (ch : Byte) (s : Monitor) : Monitor :=
  { s with outBuffer := Function.update s.outBuffer i ch }.log
    (.out i s.outLen.toInt)

/-- `db_out_buffer[db_out_len++] = ch` -/
def put (ch : Byte) (s : Monitor) : Monitor :=
  { s.storeOut s.outLen.toInt ch with outLen := s.outLen + 1 }

def puts (text : List Byte) (s : Monitor) : Monitor :=
  text.foldl (fun s ch => s.put ch) s

/-- The stores of `mem2hex`, which leave `db_out_len` alone. -/
def storeText : List Byte → ℤ → Monitor → Monitor
  | [], _, s => s
  | ch :: text, i, s => storeText text (i + 1) (s.storeOut i ch)

/-- `mem2hex` to the end of the output, which then grows by `size`. -/
def putText (text : List Byte) (size : BitVec 32) (s : Monitor) : Monitor :=
  { storeText text s.outLen.toInt s with outLen := s.outLen + size }

def outBytes (start stop : ℤ) (s : Monitor) : List Byte :=
  (List.range (stop - start).toNat).map fun i : ℕ =>
    s.outBuffer (start + i)

/-- `db_send_packet`, with what it hands to `write`. -/
def dbSendPacket (s : Monitor) : Monitor :=
  if s.connected then
    { s with
      sent := s.sent ++ [s.outBytes 0 s.outLen.toInt]
      connected := !s.broken
      outLen := 0 }
  else { s with outLen := 0 }

def dbChecksumPacket (start : BitVec 32) (s : Monitor) : Monitor :=
  let checksum := (s.outBytes start.toInt s.outLen.toInt).sum
  ((s.put HASH).put (hexchars.getD (checksum >>> 4).toNat 0)).put
    (hexchars.getD (checksum &&& 0xf).toNat 0)

/-! ## The commands -/

def onMachine (change : Machine → Machine) (s : Monitor) : Monitor :=
  { s with machine := change s.machine }

/-- The command `?` -/
def showSignal (s : Monitor) : Monitor :=
  (((s.put 0x53).put (hexchars.getD (s.sigval >>> 4) 0)).put
    (hexchars.getD (s.sigval &&& 0xf) 0)).put 0

/-- What the command `g` fills `db_registers` with. -/
def registerImage (m : Machine) (i : ℕ) : Byte :=
  if i = 33 then m.ccr
  else if i = 36 then m.pc.extractLsb' 8 8
  else if i = 37 then m.pc.extractLsb' 0 8
  else if i = 40 then BitVec.ofNat 8 (m.cycles >>> 8)
  else if i = 41 then BitVec.ofNat 8 m.cycles
  else if i < 32 ∧ i % 4 = 0 then m.reg (BitVec.ofNat 4 (i / 4))
  else if i < 32 ∧ i % 4 = 1 then m.reg (BitVec.ofNat 4 (i / 4 + 8))
  else 0

/-- The command `g` -/
def readRegisters (s : Monitor) : Monitor :=
  let s := { s with dbRegisters := registerImage s.machine }
  s.putText (mem2hex ((List.range NUM_REG_BYTES).map s.dbRegisters))
    (2 * BitVec.ofNat 32 NUM_REG_BYTES)

/-- The command `G` -/
def writeRegisters (packet : List Byte) (s : Monitor) : Monitor :=
  let bytes := hex2mem packet NUM_REG_BYTES
  { s with dbRegisters := fun i => bytes.getD i 0 }.puts OK

def setRegister (addr : BitVec 32) (value : List Byte) (m : Machine) :
    Machine :=
  let high := value.getD 0 0
  let low := value.getD 1 0
  if addr.toNat < 8 then
    (m.setReg (addr.setWidth 4) high).setReg (addr.setWidth 4 + 8) low
  else if addr = 8 then { m with ccr := low }
  else if addr = 9 then { m with pc := high ++ low }
  else m

/-- `mem2hex` of a part of `memory`: the accesses. -/
def loadMemory (addr : ℤ) : ℕ → Monitor → Monitor
  | 0, s => s
  | count + 1, s => loadMemory (addr + 1) count (s.log (.memory addr))

/-- The command `m` -/
def readMemory (packet : List Byte) (s : Monitor) : Monitor :=
  match parseRange packet with
  | some (addr, length, _) =>
      if rangeAllowed addr length then
        let count := length.toInt.toNat
        let bytes := (List.range count).map fun i =>
          s.machine.memory (addr.toNat + i)
        (loadMemory addr.toInt count s).putText (mem2hex bytes) (2 * length)
      else s.puts E03
  | none => s.puts E01

/-- The command `P`, which falls through into `m` behind its `=`. -/
def writeRegister (packet : List Byte) (s : Monitor) : Monitor :=
  match parseRegister packet with
  | some (addr, packet) =>
      readMemory packet
        ((s.onMachine (setRegister addr (hex2mem packet 4))).puts OK)
  | none => s.puts E01

/-- `hex2mem` to a part of `memory`. -/
def storeMemory : ℤ → List Byte → Monitor → Monitor
  | _, [], s => s
  | addr, val :: bytes, s =>
      storeMemory (addr + 1) bytes
        ((s.onMachine fun m => m.poke addr.toNat val).log (.memory addr))

/-- The command `M` -/
def writeMemory (packet : List Byte) (s : Monitor) : Monitor :=
  match parseWrite packet with
  | some (addr, length, packet) =>
      if rangeAllowed addr length then
        (storeMemory addr.toInt (hex2mem packet length.toInt.toNat) s).puts
          OK
      else s.puts E03
  | none => s.puts E02

/-- The loop over the trap bits of `count` addresses. -/
def changeTraps (change : Byte → Byte) : ℕ → ℤ → Monitor → Monitor
  | 0, _, s => s
  | count + 1, i, s =>
      changeTraps change count (i + 1)
        ((s.onMachine fun m =>
          m.setMemtype i.toNat (change (m.memtype i.toNat))).log
            (.memtype i))

/-- The commands `Z` and `z`, which differ in what they do with the mask. -/
def traps (change : Byte → Byte → Byte) (packet : List Byte)
    (s : Monitor) : Monitor :=
  match parseTraps packet with
  | some (type, addr, length) =>
      if rangeAllowed addr length ∧ 0 ≤ type.toInt ∧ type.toInt < 6 then
        let mask := bptype2mask.getD type.toNat 0
        let count := ((addr + length).toInt - addr.toInt).toNat
        (changeTraps (change mask) count addr.toInt s).puts OK
      else s.puts E03
  | none => s.puts E01

def setTraps (packet : List Byte) (s : Monitor) : Monitor :=
  traps (fun mask type => type ||| mask) packet s

def clearTraps (packet : List Byte) (s : Monitor) : Monitor :=
  traps (fun mask type => type &&& ~~~mask) packet s

/-- The commands `s` and `c`, which send no reply. -/
def resume (singlestep : Bool) (packet : List Byte) (start : BitVec 32)
    (s : Monitor) : Monitor :=
  let s := s.onMachine fun m =>
    { m with
      dbSinglestep := singlestep
      dbTrap := 0
      pc := ((hexToInt packet).map fun value =>
        value.1.setWidth 16).getD m.pc }
  { s with outLen := start - 1 }.dbSendPacket

/-- The checksum and the transmission at the end of `db_handle_packet`. -/
def reply (start : BitVec 32) (s : Monitor) : Monitor :=
  (s.dbChecksumPacket start).dbSendPacket

def dbHandlePacket (packet : List Byte) (s : Monitor) : Monitor :=
  let s := s.put DOLLAR
  let start := s.outLen
  let command := DbCommand.ofByte (packet.headD 0)
  let packet := packet.tail
  match command with
  | .signal => s.showSignal.reply start
  | .debug => { s with remoteDebug := !s.remoteDebug }.reply start
  | .readRegisters => s.readRegisters.reply start
  | .writeRegisters => (s.writeRegisters packet).reply start
  | .writeRegister => (s.writeRegister packet).reply start
  | .readMemory => (s.readMemory packet).reply start
  | .writeMemory => (s.writeMemory packet).reply start
  | .step => s.resume true packet start
  | .resume => s.resume false packet start
  | .detach => { s with cont := true }.reply start
  | .setTraps => (s.setTraps packet).reply start
  | .clearTraps => (s.clearTraps packet).reply start
  | .other => s.reply start

/-- The acknowledgement of a packet in `db_parse_packet`, which repeats a
sequence identifier, and the call of `db_handle_packet`. -/
def dbAnswer (packet : List Byte) (s : Monitor) : Monitor :=
  let s := s.put PLUS
  if packet.getD 2 0 = COLON then
    ((s.put (packet.getD 0 0)).put (packet.getD 1 0)).dbHandlePacket
      (packet.drop 3)
  else s.dbHandlePacket packet

end Monitor

/-- A debugger session between two packets: all output has been sent. -/
structure Session extends Monitor where
  drained : outLen = 0
  attached : connected = true
  reachable : broken = false

end BrickEmu
