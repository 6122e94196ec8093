import BrickEmu.HostInteger

/-!
# The packet parser of the debugger

`db_handlefd` appends what it reads from the debugger's socket to
`db_in_buffer`, and `db_parse_packet` takes acknowledgements, Ctrl-C bytes and
packets from its front.  The buffer is a function from indices to bytes: the
parser also looks at bytes that earlier packets have left behind.  What the
parser passes on is a log of events; a copy of negative length ends the run.
-/

namespace BrickEmu

inductive DbEvent where
  | interrupt
  | packet (data : List Byte)
  | disconnect
  deriving DecidableEq

structure DbState where
  inBuffer : ℕ → Byte
  len : ℕ
  events : List DbEvent
  outBuffer : List Byte

/-- A `memcpy` was asked to copy a negative number of bytes. -/
inductive DbFault where
  | negativeLength
  deriving DecidableEq

def DOLLAR : Byte := 0x24
def HASH : Byte := 0x23
def PLUS : Byte := 0x2b
def MINUS : Byte := 0x2d
def COLON : Byte := 0x3a
def CTRLC : Byte := 0x03

/-- `hex`, with -1 for a character that is no digit. -/
def hex (ch : Byte) : BitVec 32 :=
  if 0x61 ≤ ch ∧ ch ≤ 0x66 then ch.setWidth 32 - 0x61 + 10
  else if 0x30 ≤ ch ∧ ch ≤ 0x39 then ch.setWidth 32 - 0x30
  else if 0x41 ≤ ch ∧ ch ≤ 0x46 then ch.setWidth 32 - 0x41 + 10
  else -1

namespace DbState

def log (event : DbEvent) (s : DbState) : DbState :=
  { s with events := s.events ++ [event] }

def reply (bytes : List Byte) (s : DbState) : DbState :=
  { s with outBuffer := s.outBuffer ++ bytes }

def store (i : ℕ) (val : Byte) (s : DbState) : DbState :=
  { s with inBuffer := Function.update s.inBuffer i val }

/-- The bytes from `start` to before `stop`. -/
def bytes (start stop : ℕ) (s : DbState) : List Byte :=
  (List.range' start (stop - start)).map s.inBuffer

/-- The copy that moves the bytes from `i` on to the front. -/
def shift (i : ℕ) (s : DbState) : Except DbFault DbState :=
  if (s.len : ℤ) - i < 0 then .error .negativeLength
  else .ok { s with
    inBuffer := fun j =>
      if j < s.len - i then s.inBuffer (i + j) else s.inBuffer j
    len := s.len - i }

/-- The loop that skips the bytes before a packet. -/
def skipGarbage : ℕ → ℕ → DbState → ℕ × DbState
  | 0, i, s => (i, s)
  | fuel + 1, i, s =>
      if i < s.len ∧ s.inBuffer i ≠ DOLLAR then
        skipGarbage fuel (i + 1)
          (if s.inBuffer i = CTRLC then s.log .interrupt else s)
      else (i, s)

/-- The loop that looks for the end of a packet. -/
def scanPacket (s : DbState) : ℕ → ℕ → Byte → ℕ × Byte
  | 0, i, checksum => (i, checksum)
  | fuel + 1, i, checksum =>
      if (i : ℤ) < s.len - 2 ∧ s.inBuffer i ≠ HASH then
        scanPacket s fuel (i + 1) (checksum + s.inBuffer i)
      else (i, checksum)

/-- The answer to a packet whose `#` stands at index `i`. -/
def acceptPacket (i : ℕ) (checksum : Byte) (s : DbState) : DbState :=
  let s := s.store (i + 3) 0
  if checksum.setWidth 32 ≠
      (hex (s.inBuffer (i + 1)) <<< 4) ||| hex (s.inBuffer (i + 2)) then
    s.reply [MINUS]
  else
    let s := (s.reply [PLUS]).store i 0
    if s.inBuffer 3 = COLON then
      let s := (s.reply [s.inBuffer 1, s.inBuffer 2]).store 0 HASH
      s.log (.packet (s.bytes 4 i))
    else s.log (.packet (s.bytes 1 i))

end DbState

/-- The part of a pass behind the `$`, with the index for the next pass
unless the function returns. -/
def dbTakePacket (s : DbState) : Except DbFault (Option ℕ × DbState) := do
  let (i, checksum) := s.scanPacket s.len 1 0
  if (i : ℤ) = s.len - 2 then
    return (none, s)
  let s ← (s.acceptPacket i checksum).shift (i + 3)
  return (some (i + 3), s)

/-- One pass of the outer loop of `db_parse_packet` from index `i`. -/
def dbParseStep (i : ℕ) (s : DbState) :
    Except DbFault (Option ℕ × DbState) := do
  let (i, s) := s.skipGarbage (s.len - i) i
  if s.len ≤ i then
    return (none, { s with len := 0 })
  let s ← s.shift i
  dbTakePacket s

/-- The outer loop.  Every pass that goes on takes a packet from the
buffer. -/
def dbParseLoop : ℕ → ℕ → DbState → Except DbFault DbState
  | 0, _, s => .ok s
  | fuel + 1, i, s =>
      if i < s.len then
        match dbParseStep i s with
        | .error fault => .error fault
        | .ok (none, s) => .ok s
        | .ok (some i, s) => dbParseLoop fuel i s
      else .ok s

def dbParsePacket (s : DbState) : Except DbFault DbState :=
  let s := s.store s.len 0
  dbParseLoop s.len 0 s

/-- The buffer after a `read` that returns the given bytes. -/
def DbState.receive (input : List Byte) (s : DbState) : DbState :=
  { s with
    inBuffer := fun j =>
      if s.len ≤ j ∧ j < s.len + input.length then
        input.getD (j - s.len) 0
      else s.inBuffer j
    len := s.len + input.length }

/-- `db_handlefd` when `read` returns the given bytes. -/
def dbHandlefd (input : List Byte) (s : DbState) : Except DbFault DbState :=
  if input = [] then .ok (s.log .disconnect)
  else dbParsePacket (s.receive input)

def dbInit : DbState where
  inBuffer := fun _ => 0
  len := 0
  events := []
  outBuffer := []

def dbHandleReads : List (List Byte) → DbState → Except DbFault DbState
  | [], s => .ok s
  | input :: reads, s =>
      match dbHandlefd input s with
      | .error fault => .error fault
      | .ok s => dbHandleReads reads s

end BrickEmu
