import BrickEmu.Timer16

/-!
# The watchdog timer

The registers of `watchdog.c`.  An overflow resets the processor or raises
the non-maskable interrupt; in watchdog mode the counter is restarted 518
cycles after the overflow, so `lastCycles` may lie in the future.
-/

namespace BrickEmu

structure Watchdog where
  tcsr : Byte
  readtcsr : Byte
  tcnt : Byte
  pw : Byte
  lastCycles : ℕ
  deriving DecidableEq

namespace Watchdog

def OVF : Byte := 0x80
def WTIT : Byte := 0x40
def TME : Byte := 0x20
def RST : Byte := 0x08

def freq (tcsr : Byte) : ℕ :=
  match (tcsr &&& 7).toNat with
  | 0 => 1
  | 1 => 5
  | 2 => 6
  | 3 => 7
  | 4 => 8
  | 5 => 9
  | 6 => 11
  | _ => 12

/-- The cycle of the next overflow. -/
def nextCycle (wdog : Watchdog) : ℕ :=
  wdog.lastCycles + (0x100 - wdog.tcnt.toNat) * 2 ^ freq wdog.tcsr

end Watchdog

open Watchdog

def wdogReset (clock : Clock) (_wdog : Watchdog) : Watchdog where
  tcnt := 0
  pw := 0
  readtcsr := 0x10
  tcsr := 0x10
  lastCycles := clock.cycles

def wdogCheckNextCycle (wdog : Watchdog) (clock : Clock) : Clock :=
  if wdog.tcsr &&& TME ≠ 0 then
    { clock with
      nextNmiCycle := min wdog.nextCycle clock.nextNmiCycle
      nextTimerCycle := min wdog.nextCycle clock.nextTimerCycle }
  else clock

/-- The counting part of `wdog_update_time` for a nonnegative increment. -/
def wdogCount (incr : ℤ) (wdog : Watchdog) : Watchdog :=
  let freq := freq wdog.tcsr
  let last : ℤ := wdog.lastCycles + int32 (incr * 2 ^ freq)
  let past : ℤ := wdog.tcnt.toNat + incr - 0x100
  if 0 ≤ past then
    let tcsr := wdog.tcsr ||| OVF
    if tcsr &&& WTIT ≠ 0 then
      { wdog with
        tcsr := tcsr
        lastCycles := uint64 (last - int32 (past * 2 ^ freq) + 518)
        tcnt := 0 }
    else
      { wdog with
        tcsr := tcsr
        lastCycles := uint64 last
        tcnt := wdog.tcnt + BitVec.ofInt 8 incr }
  else
    { wdog with
      lastCycles := uint64 last
      tcnt := wdog.tcnt + BitVec.ofInt 8 incr }

def wdogUpdateTime (clock : Clock) (wdog : Watchdog) : Watchdog × Clock :=
  if wdog.tcsr &&& TME ≠ 0 then
    let incr := int32 (uint64 ((clock.cycles : ℤ) - wdog.lastCycles) /
      2 ^ freq wdog.tcsr : ℕ)
    let wdog := if incr < 0 then wdog else wdogCount incr wdog
    (wdog, wdogCheckNextCycle wdog clock)
  else (wdog, clock)

/-- Consumes an overflow and returns the reset or the interrupt vector. -/
def wdogCheckIrq (clock : Clock) (wdog : Watchdog) :
    ℕ × Watchdog × Clock :=
  if wdog.tcsr &&& OVF ≠ 0 then
    let wdog := { wdog with tcsr := wdog.tcsr &&& ~~~OVF }
    if wdog.tcsr &&& RST ≠ 0 then
      (0, wdog, { clock with nextNmiCycle := wdog.lastCycles })
    else (3, wdog, clock)
  else (255, wdog, clock)

def setPw (val : Byte) (wdog : Watchdog) : Watchdog :=
  { wdog with pw := val }

def setVal (val : Byte) (clock : Clock) (wdog : Watchdog) :
    Watchdog × Clock :=
  if wdog.pw = 0xa5 then
    let (wdog, clock) := wdogUpdateTime clock wdog
    let val := (val ||| 0x10 ||| (0x80 &&& ~~~wdog.readtcsr)) &&&
      (0x7f ||| wdog.tcsr)
    let wdog := { wdog with
      tcsr := val, lastCycles := clock.cycles, pw := 0 }
    (wdog, wdogCheckNextCycle wdog clock)
  else if wdog.pw = 0x5a then
    let (wdog, clock) := wdogUpdateTime clock wdog
    let wdog := { wdog with
      tcnt := val, lastCycles := clock.cycles, pw := 0 }
    (wdog, wdogCheckNextCycle wdog clock)
  else (wdog, clock)

def getWdogTCSR (wdog : Watchdog) : Byte × Watchdog :=
  (wdog.tcsr, { wdog with readtcsr := wdog.tcsr })

end BrickEmu
