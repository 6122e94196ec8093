import BrickEmu.Timer16

/-!
# The serial interface

The registers of `serial.c`.  The socket to the infrared server is a list of
results for the coming `read` calls, `none` where no byte is available, and
the list of bytes written so far.
-/

namespace BrickEmu

structure Serial where
  rdr : Byte
  tdr : Byte
  smr : Byte
  scr : Byte
  ssr : Byte
  readssr : Byte
  brr : Byte
  serCycles : ℕ
  receiving : Bool
  rxCycle : ℕ
  txCycle : ℕ
  input : List (Option Byte)
  output : List Byte

namespace Serial

def CHR : Byte := 0x40
def PE : Byte := 0x20
def STOP : Byte := 0x08
def TE : Byte := 0x20
def RE : Byte := 0x10
def TDRE : Byte := 0x80
def RDRF : Byte := 0x40
def ORER : Byte := 0x20
def FER : Byte := 0x10
def PER : Byte := 0x08
def TEND : Byte := 0x04
def MPBT : Byte := 0x01

/-- The enabled status flags. -/
def pending (serial : Serial) : Byte :=
  serial.scr &&& serial.ssr &&& (RDRF ||| TDRE ||| TEND)

/-- One `read` of the socket. -/
def read (serial : Serial) : Option Byte × Serial :=
  (serial.input.head?.join, { serial with input := serial.input.tail })

def write (serial : Serial) : Serial :=
  { serial with output := serial.output ++ [serial.tdr] }

end Serial

open Serial

def serUpdateCycles (clock : Clock) (serial : Serial) : Serial :=
  let bits := (if serial.smr &&& CHR ≠ 0 then 7 else 8) +
    (if serial.smr &&& PE ≠ 0 then 1 else 0) +
    (if serial.smr &&& STOP ≠ 0 then 2 else 1) + 1
  let serCycles := (serial.brr.toNat + 1) *
    2 ^ (2 * (serial.smr &&& 3).toNat + 5) * bits
  { serial with
    serCycles := serCycles
    rxCycle := addToCycle clock.cycles serCycles }

def serReset (clock : Clock) (serial : Serial) : Serial :=
  let serial := serUpdateCycles clock { serial with
    rdr := 0, smr := 0, scr := 0, tdr := 0xff, brr := 0xff
    ssr := 0x84, readssr := 0x84, receiving := false }
  { serial with txCycle := clock.cycles }

def serCheckNextCycle (serial : Serial) (clock : Clock) : Clock :=
  if serial.pending ≠ 0 then
    { clock with nextTimerCycle := clock.cycles }
  else
    let rx := uint32 ((serial.rxCycle : ℤ) - clock.cycles)
    let tx := uint32 ((serial.txCycle : ℤ) - clock.cycles)
    let next := serial.serCycles
    let next :=
      if serial.rxCycle ≠ clock.cycles ∧ rx < next ∧
        serial.scr &&& RDRF ≠ 0 then rx else next
    let next :=
      if tx < next ∧ serial.scr &&& (TDRE ||| TEND) ≠ 0 then tx else next
    if int32 next < int32 ((clock.nextTimerCycle : ℤ) - clock.cycles) then
      { clock with nextTimerCycle := addToCycle clock.cycles (int32 next) }
    else clock

/-- The transmitting half of `ser_update_time`. -/
def serTransmit (clock : Clock) (serial : Serial) : Serial :=
  if 0 ≤ int32 ((clock.cycles : ℤ) - serial.txCycle) then
    if serial.ssr &&& TDRE = 0 then
      let serial := if serial.scr &&& TE ≠ 0 then serial.write else serial
      { serial with
        ssr := serial.ssr ||| TDRE
        txCycle := addToCycle serial.txCycle serial.serCycles }
    else
      { serial with
        ssr := serial.ssr ||| TEND
        txCycle := uint64 ((clock.cycles : ℤ) - 1) }
  else serial

/-- The receiving half of `ser_update_time`. -/
def serReceive (clock : Clock) (serial : Serial) : Serial :=
  if 0 ≤ int32 ((clock.cycles : ℤ) - serial.rxCycle) then
    match serial.read with
    | (some buf, serial) =>
        if serial.scr &&& RE ≠ 0 then
          let serial := { serial with
            rxCycle := addToCycle serial.rxCycle serial.serCycles
            receiving := true }
          if serial.ssr &&& RDRF ≠ 0 then
            { serial with ssr := serial.ssr ||| ORER }
          else
            { serial with
              rdr := if serial.smr &&& CHR ≠ 0 then buf &&& 0x7f else buf
              ssr := serial.ssr ||| RDRF }
        else
          { serial with
            rxCycle := uint64 ((clock.cycles : ℤ) - 1), receiving := false }
    | (none, serial) =>
        { serial with
          rxCycle := uint64 ((clock.cycles : ℤ) - 1), receiving := false }
  else serial

def serUpdateTime (clock : Clock) (serial : Serial) : Serial × Clock :=
  let serial := serReceive clock (serTransmit clock serial)
  (serial, serCheckNextCycle serial clock)

def serCheckIrq (serial : Serial) : ℕ :=
  let irqs := serial.pending
  if irqs &&& RDRF ≠ 0 then 28
  else if irqs &&& TDRE ≠ 0 then 29
  else if irqs &&& TEND ≠ 0 then 30
  else 255

def setSMR (val : Byte) (clock : Clock) (serial : Serial) :
    Serial × Clock :=
  (serUpdateCycles clock { serial with smr := val }, clock)

def setBRR (val : Byte) (clock : Clock) (serial : Serial) :
    Serial × Clock :=
  (serUpdateCycles clock { serial with brr := val }, clock)

def setSCR (val : Byte) (clock : Clock) (serial : Serial) :
    Serial × Clock :=
  let serial := { serial with scr := val }
  (serial, serCheckNextCycle serial clock)

/-- The part of `set_SSR` for TDRE read as 1 and written as 0. -/
def startTransmission (clock : Clock) (serial : Serial) : Serial :=
  let serial := { serial with ssr := serial.ssr &&& ~~~(TDRE ||| TEND) }
  if int32 ((serial.txCycle : ℤ) - clock.cycles) < 0 then
    let serial := if serial.scr &&& TE ≠ 0 then serial.write else serial
    { serial with
      txCycle := addToCycle clock.cycles serial.serCycles
      ssr := serial.ssr ||| TDRE }
  else serial

def setSSR (val : Byte) (clock : Clock) (serial : Serial) :
    Serial × Clock :=
  let serial :=
    if serial.readssr &&& ~~~val &&& TDRE ≠ 0 then
      startTransmission clock serial
    else serial
  let ssr := serial.ssr &&&
    (~~~serial.readssr ||| val ||| ~~~(RDRF ||| ORER ||| FER ||| PER))
  let serial := { serial with ssr := ssr ^^^ ((ssr ^^^ val) &&& MPBT) }
  (serial, serCheckNextCycle serial clock)

def getSSR (serial : Serial) : Byte × Serial :=
  (serial.ssr, { serial with readssr := serial.ssr })

def setTDR (val : Byte) (clock : Clock) (serial : Serial) :
    Serial × Clock :=
  ({ serial with tdr := val }, clock)

end BrickEmu
