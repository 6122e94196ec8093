import BrickEmu.HostInteger

/-!
# The 16-bit free running timer

The registers of `timer16.c` with every access function.  The counter is
evaluated lazily: `t16UpdateTime` accounts for the ticks since
`myLastCycles` in bulk and `t16CheckNextCycle` lowers the deadline
`nextTimerCycle` at which the run loop polls for interrupts again.  The
output pins FTOA and FTOB have no listener in the source.
-/

namespace BrickEmu

/-- The global cycle counter and the two deadlines of the run loop. -/
structure Clock where
  cycles : ℕ
  nextTimerCycle : ℕ
  nextNmiCycle : ℕ
  deriving DecidableEq

/-- The longest time between two polls for interrupts. -/
def MAX_AUTONOMOUS_CYCLES : ℕ := 1600000

def addToCycle (base : ℕ) (value : ℤ) : ℕ :=
  uint64 (base + value)

structure Timer16 where
  frc : Word
  ocra : Word
  ocrb : Word
  tcsr : Byte
  tier : Byte
  tcr : Byte
  tocr : Byte
  temp : Byte
  myLastCycles : ℕ
  deriving DecidableEq

namespace Timer16

def OCFA : Byte := 0x08
def OCFB : Byte := 0x04
def OVF : Byte := 0x02
def CCLRA : Byte := 0x01
def OCRS : Byte := 0x10

def freq (tcr : Byte) : ℕ :=
  match (tcr &&& 3).toNat with
  | 0 => 1
  | 1 => 3
  | 2 => 5
  | _ => 1

/-- The enabled status flags, `tier & tcsr & 0xfe`. -/
def pending (timer : Timer16) : Byte :=
  timer.tier &&& timer.tcsr &&& 0xfe

/-- Ticks to the earliest event the deadline computation considers. -/
def nextEvent (timer : Timer16) : ℕ :=
  let next := 0x10000 - timer.frc.toNat
  let nexta := (timer.ocra + 1 - timer.frc).toNat
  let next := if timer.tier &&& OCFA ≠ 0 ∧ nexta < next then nexta else next
  let nextb := (timer.ocrb + 1 - timer.frc).toNat
  if timer.tier &&& OCFB ≠ 0 ∧ nextb < next then nextb else next

end Timer16

open Timer16

def t16Reset (clock : Clock) (timer : Timer16) : Timer16 where
  frc := 0
  ocra := 0xffff
  ocrb := 0xffff
  tier := 1
  tcsr := 0
  tcr := 0
  tocr := 0xe0
  temp := timer.temp
  myLastCycles := clock.cycles

def t16CheckNextCycle (timer : Timer16) (clock : Clock) : Clock :=
  if timer.pending ≠ 0 then
    { clock with nextTimerCycle := clock.cycles }
  else
    let nextCycle := int32 ((timer.nextEvent * 2 ^ freq timer.tcr : ℕ) +
      timer.myLastCycles - clock.cycles)
    if nextCycle < int32 (clock.nextTimerCycle - clock.cycles) then
      { clock with nextTimerCycle := addToCycle clock.cycles nextCycle }
    else clock

/-- The loop at `repeat_cycle`: `frc` runs up to `newfrc`, restarting from
zero at a clearing compare match and at an overflow.  Each pass lowers
`newfrc`, so `newfrc + 1` passes always suffice. -/
def repeatCycle (ocra ocrb : ℕ) : ℕ → ℕ → ℕ → Byte → ℕ × Byte
  | 0, _, newfrc, tcsr => (newfrc, tcsr)
  | fuel + 1, frc, newfrc, tcsr =>
      let matchA := frc ≤ ocra ∧ ocra < newfrc
      let tcsr := if matchA then tcsr ||| OCFA else tcsr
      if matchA ∧ tcsr &&& CCLRA ≠ 0 then
        let tcsr :=
          if frc ≤ ocrb ∧ ocrb ≤ ocra then tcsr ||| OCFB else tcsr
        repeatCycle ocra ocrb fuel 0 (newfrc - (ocra + 1)) tcsr
      else
        let tcsr :=
          if frc ≤ ocrb ∧ ocrb < newfrc then tcsr ||| OCFB else tcsr
        if 0xffff < newfrc then
          repeatCycle ocra ocrb fuel 0 (newfrc - 0x10000) (tcsr ||| OVF)
        else (newfrc, tcsr)

/-- The counting part of `t16_update_time`, before the deadline is
recomputed. -/
def t16Count (cycles : ℕ) (timer : Timer16) : Timer16 :=
  let increment := int32 ((cycles : ℤ) - timer.myLastCycles) /
    2 ^ freq timer.tcr
  let newfrc := uint32 (timer.frc.toNat + increment)
  let counted := repeatCycle timer.ocra.toNat timer.ocrb.toNat (newfrc + 1)
    timer.frc.toNat newfrc timer.tcsr
  { timer with
    frc := BitVec.ofNat 16 counted.1
    tcsr := counted.2
    myLastCycles := addToCycle timer.myLastCycles
      (int32 (increment * 2 ^ freq timer.tcr)) }

def t16UpdateTime (clock : Clock) (timer : Timer16) : Timer16 × Clock :=
  let timer := t16Count clock.cycles timer
  (timer, t16CheckNextCycle timer clock)

def t16CheckIrq (timer : Timer16) : ℕ :=
  match (List.range 7).find? fun i => timer.pending.getLsbD (7 - i) with
  | some i => 12 + i
  | none => 255

def setTIER (val : Byte) (clock : Clock) (timer : Timer16) :
    Timer16 × Clock :=
  let timer := { timer with tier := val ||| 1 }
  (timer, t16CheckNextCycle timer clock)

def setTCSR (val : Byte) (clock : Clock) (timer : Timer16) :
    Timer16 × Clock :=
  let timer := { timer with tcsr := (timer.tcsr &&& val) ||| (val &&& 1) }
  (timer, t16CheckNextCycle timer clock)

def setFRCH (val : Byte) (timer : Timer16) : Timer16 :=
  { timer with temp := val }

def setFRCL (val : Byte) (timer : Timer16) : Timer16 :=
  { timer with frc := timer.temp ++ val }

def getFRCH (timer : Timer16) : Byte × Timer16 :=
  (timer.frc.extractLsb' 8 8,
    { timer with temp := timer.frc.extractLsb' 0 8 })

def setOCRH (val : Byte) (timer : Timer16) : Timer16 :=
  { timer with temp := val }

def setOCRL (val : Byte) (timer : Timer16) : Timer16 :=
  if timer.tocr &&& OCRS ≠ 0 then { timer with ocrb := timer.temp ++ val }
  else { timer with ocra := timer.temp ++ val }

def Timer16.selectedOCR (timer : Timer16) : Word :=
  if timer.tocr &&& OCRS ≠ 0 then timer.ocrb else timer.ocra

/-- `set_TCR` after its call of `wait_peripherals`. -/
def storeTCR (val : Byte) (timer : Timer16) : Timer16 :=
  { timer with tcr := val }

def setTOCR (val : Byte) (timer : Timer16) : Timer16 :=
  { timer with tocr := val ||| 0xe0 }

inductive T16Register where
  | TIER
  | TCSR
  | FRCH
  | FRCL
  | OCRH
  | OCRL
  | TCR
  | TOCR
  deriving DecidableEq

/-- The `get_` functions. -/
def t16Read (timer : Timer16) : T16Register → Byte × Timer16
  | .TIER => (timer.tier, timer)
  | .TCSR => (timer.tcsr, timer)
  | .FRCH => getFRCH timer
  | .FRCL => (timer.temp, timer)
  | .OCRH => (timer.selectedOCR.extractLsb' 8 8, timer)
  | .OCRL => (timer.selectedOCR.extractLsb' 0 8, timer)
  | .TCR => (timer.tcr, timer)
  | .TOCR => (timer.tocr, timer)

/-- The `set_` functions, `set_TCR` without its call of
`wait_peripherals`. -/
def t16Store (val : Byte) (clock : Clock) (timer : Timer16) :
    T16Register → Timer16 × Clock
  | .TIER => setTIER val clock timer
  | .TCSR => setTCSR val clock timer
  | .FRCH => (setFRCH val timer, clock)
  | .FRCL => (setFRCL val timer, clock)
  | .OCRH => (setOCRH val timer, clock)
  | .OCRL => (setOCRL val timer, clock)
  | .TCR => (storeTCR val timer, clock)
  | .TOCR => (setTOCR val timer, clock)

/-- The `set_` functions as the timer sees them: of the peripherals that
`wait_peripherals` updates for `set_TCR`, this is the timer itself. -/
def t16Write (val : Byte) (clock : Clock) (timer : Timer16) :
    T16Register → Timer16 × Clock
  | .TCR =>
      let updated := t16UpdateTime clock timer
      t16Store val updated.2 updated.1 .TCR
  | register => t16Store val clock timer register

end BrickEmu
