import BrickEmu.Timer16

/-!
# The two-channel 8-bit timer

The registers of `timer8.c` with every access function.  The loops of the
source run over channel 0 only, so channel 1 is a set of registers that
never counts.  Updates are skipped until `myNextCycle`; the accesses that
need the counter force an update by moving that gate to the present.  The
calls of `sound_update` are kept as a list of levels with their durations.
-/

namespace BrickEmu

structure T8Channel where
  tcnt : Byte
  tcr : Byte
  tcsr : Byte
  tcora : Byte
  tcorb : Byte
  out : Byte
  lastCycles : ℕ
  myNextCycle : ℕ
  deriving DecidableEq

structure Timer8 where
  ch0 : T8Channel
  ch1 : T8Channel
  stcr : Byte
  sound : List (Byte × ℕ)
  deriving DecidableEq

namespace Timer8

def CMFB : Byte := 0x80
def CMFA : Byte := 0x40
def OVF : Byte := 0x20
def CCLR : Byte := 0x18
def CCLR0 : Byte := 0x08
def CCLR1 : Byte := 0x10

/-- The prescaler table of channel 0; 31 stands for a stopped counter. -/
def freq : ℕ → ℕ
  | 1 => 3
  | 2 => 6
  | 3 => 10
  | 9 => 1
  | 10 => 5
  | 11 => 8
  | _ => 31

def shift (timer : Timer8) : ℕ :=
  freq ((timer.ch0.tcr &&& 7) ||| ((timer.stcr &&& 1) <<< 3)).toNat

/-- The enabled status flags of both channels. -/
def pending (timer : Timer8) : Byte :=
  ((timer.ch0.tcsr &&& timer.ch0.tcr) ||| (timer.ch1.tcsr &&& timer.ch1.tcr))
    &&& 0xe0

end Timer8

open Timer8

/-- Cycles from `lastCycles` to the earliest event the deadline computation
considers.  The compare events are gated by the status flags CMFA and CMFB
of `tcsr`, not by the enable bits of `tcr`. -/
def T8Channel.nextEvent (channel : T8Channel) (shift : ℕ) : ℤ :=
  let next : ℤ := 0x100 * 2 ^ 10
  let nextev : ℤ := (0x100 - channel.tcnt.toNat) * 2 ^ shift
  let next := if nextev < next then nextev else next
  let nextev : ℤ := (channel.tcora.toNat + 1 - channel.tcnt.toNat) * 2 ^ shift
  let next :=
    if (channel.tcsr &&& CMFA ≠ 0 ∧ channel.tcnt < channel.tcora) ∧
      nextev < next then nextev else next
  let nextev : ℤ := (channel.tcorb.toNat + 1 - channel.tcnt.toNat) * 2 ^ shift
  if channel.tcsr &&& CMFB ≠ 0 ∧ nextev < next then nextev else next

def t8Reset (clock : Clock) (timer : Timer8) : Timer8 where
  ch0 := { timer.ch0 with
    tcnt := 0, tcr := 0, tcsr := 0x10, tcora := 0xff, tcorb := 0xff
    lastCycles := clock.cycles }
  ch1 := { timer.ch1 with
    tcnt := 0, tcr := 0, tcsr := 0x10, tcora := 0xff, tcorb := 0xff
    lastCycles := clock.cycles }
  stcr := 0xf8
  sound := timer.sound

def t8CheckNextCycle (timer : Timer8) (clock : Clock) : Timer8 × Clock :=
  if timer.pending ≠ 0 then
    (timer, { clock with nextTimerCycle := clock.cycles })
  else if timer.shift = 31 then (timer, clock)
  else
    let next := timer.ch0.nextEvent timer.shift
    let target := uint64 (timer.ch0.lastCycles + next)
    ({ timer with ch0 := { timer.ch0 with myNextCycle := target } },
      if next < int32 ((clock.nextTimerCycle : ℤ) - timer.ch0.lastCycles) then
        { clock with nextTimerCycle := target }
      else clock)

/-- The level of the output pin after a compare match with output select
bits `select`. -/
def t8Output (select : Byte) (out : Byte) : Byte :=
  match (select &&& 3).toNat with
  | 1 => 0
  | 2 => 1
  | 3 => if out = 0 then 1 else 0
  | _ => out

/-- One compare match inside `t8_incr_tcnt`: the sound up to the match, the
new level, the remaining increment and the new position. -/
def t8Match (compare : ℕ) (select : Byte) (shift : ℕ)
    (state : Byte × ℕ × ℕ × List (Byte × ℕ)) :
    Byte × ℕ × ℕ × List (Byte × ℕ) :=
  let (out, cnt, incr, sound) := state
  if cnt ≤ compare ∧ compare < uint32 (cnt + incr) then
    (t8Output select out, compare,
      uint32 ((incr : ℤ) - (compare - cnt + 1)),
      sound ++ [(out, uint32 ((compare - cnt + 1) * 2 ^ shift))])
  else state

def t8IncrTcnt (channel : T8Channel) (incr shift : ℕ)
    (sound : List (Byte × ℕ)) : T8Channel × List (Byte × ℕ) :=
  let cnt := channel.tcnt.toNat
  let tcora := channel.tcora.toNat
  let tcorb := channel.tcorb.toNat
  let tcsr := if cnt ≤ tcora ∧ tcora < uint32 (cnt + incr) then
    channel.tcsr ||| CMFA else channel.tcsr
  let tcsr := if cnt ≤ tcorb ∧ tcorb < uint32 (cnt + incr) then
    tcsr ||| CMFB else tcsr
  let ordered := tcora ≤ tcorb
  let first := if ordered then tcora else tcorb
  let second := if ordered then tcorb else tcora
  let fshift := if ordered then 0 else 2
  let state := t8Match first (tcsr >>> fshift) shift
    (channel.out, cnt, incr, sound)
  let (out, _, rest, sound) :=
    t8Match second (tcsr >>> (2 - fshift)) shift state
  ({ channel with tcsr := tcsr, out := out },
    if rest ≠ 0 then sound ++ [(out, uint32 (rest * 2 ^ shift))] else sound)

/-- The `while (incr)` loop of `t8_update_time`. -/
def t8Loop (shift : ℕ) :
    ℕ → ℤ → T8Channel × List (Byte × ℕ) → T8Channel × List (Byte × ℕ)
  | 0, _, state => state
  | fuel + 1, incr, (channel, sound) =>
      let cnt := channel.tcnt.toNat
      let tcora := channel.tcora.toNat
      let tcorb := channel.tcorb.toNat
      let restart (channel : T8Channel) (step : ℕ) :=
        let counted := t8IncrTcnt channel step shift sound
        t8Loop shift fuel (incr - step)
          ({ counted.1 with tcnt := 0 }, counted.2)
      if incr = 0 then (channel, sound)
      else if channel.tcr &&& CCLR = CCLR0 ∧ cnt ≤ tcora ∧ tcora < cnt + incr then
        restart channel (tcora + 1 - cnt)
      else if channel.tcr &&& CCLR = CCLR1 ∧ cnt ≤ tcorb ∧ tcorb < cnt + incr then
        restart channel (tcorb + 1 - cnt)
      else if 0xff < cnt + incr then
        restart { channel with tcsr := channel.tcsr ||| OVF } (0x100 - cnt)
      else
        let counted := t8IncrTcnt channel (uint32 incr) shift sound
        ({ counted.1 with tcnt := channel.tcnt + BitVec.ofInt 8 incr },
          counted.2)

/-- The body of `t8_update_time` up to the deadline computation. -/
def t8Count (cycles : ℕ) (timer : Timer8) : Timer8 :=
  let channel := timer.ch0
  let elapsed := uint64 ((cycles : ℤ) - channel.lastCycles)
  if timer.shift = 31 then
    { timer with
      ch0 := { channel with lastCycles := cycles }
      sound := timer.sound ++ [(channel.out, uint32 elapsed)] }
  else if cycles < channel.myNextCycle then timer
  else
    let incr := int32 (elapsed / 2 ^ timer.shift : ℕ)
    let channel := { channel with
      lastCycles := uint64 (channel.lastCycles +
        int32 (incr * 2 ^ timer.shift)) }
    let counted := t8Loop timer.shift (incr.toNat + 1) incr
      (channel, timer.sound)
    { timer with ch0 := counted.1, sound := counted.2 }

def t8UpdateTime (clock : Clock) (timer : Timer8) : Timer8 × Clock :=
  t8CheckNextCycle (t8Count clock.cycles timer) clock

/-- `t8_set_last_cycles` for channel 0. -/
def t8SetLastCycles (clock : Clock) (timer : Timer8) : Timer8 :=
  { timer with
    ch0 := { timer.ch0 with lastCycles := clock.cycles }
    sound := timer.sound ++ [(timer.ch0.out,
      uint32 (uint64 ((clock.cycles : ℤ) - timer.ch0.lastCycles)))] }

/-- `t8_set_last_cycles` for channel 1, which makes no sound. -/
def t8SetLastCycles1 (clock : Clock) (timer : Timer8) : Timer8 :=
  { timer with ch1 := { timer.ch1 with lastCycles := clock.cycles } }

def t8CheckIrq (timer : Timer8) : ℕ :=
  let irqs : Byte := (timer.ch0.tcsr &&& timer.ch0.tcr &&& 0xe0#8) |||
    ((timer.ch1.tcsr &&& timer.ch1.tcr &&& 0xe0#8) >>> 3)
  match (List.range 6).find? fun i => irqs.getLsbD (7 - i) with
  | some i => 19 + i
  | none => 255

/-- The forced update that opens the setters of channel 0. -/
def t8Force0 (clock : Clock) (timer : Timer8) : Timer8 × Clock :=
  t8UpdateTime clock
    { timer with ch0 := { timer.ch0 with myNextCycle := clock.cycles } }

/-- The update that opens the setters of channel 1: it moves only the gate of
channel 1, which no loop reads. -/
def t8Force1 (clock : Clock) (timer : Timer8) : Timer8 × Clock :=
  t8UpdateTime clock
    { timer with ch1 := { timer.ch1 with myNextCycle := clock.cycles } }

inductive T8Register where
  | TCR0
  | TCSR0
  | TCORA0
  | TCORB0
  | TCNT0
  | TCR1
  | TCSR1
  | TCORA1
  | TCORB1
  | TCNT1
  | STCR
  deriving DecidableEq

/-- The `get_` functions. -/
def t8Read (clock : Clock) (timer : Timer8) :
    T8Register → Byte × Timer8 × Clock
  | .TCR0 => (timer.ch0.tcr, timer, clock)
  | .TCSR0 =>
      let forced := t8Force0 clock timer
      (forced.1.ch0.tcsr, forced)
  | .TCORA0 => (timer.ch0.tcora, timer, clock)
  | .TCORB0 => (timer.ch0.tcorb, timer, clock)
  | .TCNT0 => (timer.ch0.tcnt, timer, clock)
  | .TCR1 => (timer.ch1.tcr, timer, clock)
  | .TCSR1 =>
      let forced := t8Force1 clock timer
      (forced.1.ch1.tcsr, forced)
  | .TCORA1 => (timer.ch1.tcora, timer, clock)
  | .TCORB1 => (timer.ch1.tcorb, timer, clock)
  | .TCNT1 => (timer.ch1.tcnt, timer, clock)
  | .STCR => (timer.stcr, timer, clock)

def Timer8.modify0 (change : T8Channel → T8Channel) (timer : Timer8) :
    Timer8 :=
  { timer with ch0 := change timer.ch0 }

def Timer8.modify1 (change : T8Channel → T8Channel) (timer : Timer8) :
    Timer8 :=
  { timer with ch1 := change timer.ch1 }

/-- The common shape of the setters of channel 0: forced update, change,
new deadline. -/
def t8Set0 (change : T8Channel → T8Channel) (clock : Clock)
    (timer : Timer8) : Timer8 × Clock :=
  let forced := t8Force0 clock timer
  t8CheckNextCycle (forced.1.modify0 change) forced.2

def t8Set1 (change : T8Channel → T8Channel) (clock : Clock)
    (timer : Timer8) : Timer8 × Clock :=
  let forced := t8Force1 clock timer
  t8CheckNextCycle (forced.1.modify1 change) forced.2

def setTCR0 (val : Byte) (clock : Clock) (timer : Timer8) :
    Timer8 × Clock :=
  let forced := t8Force0 clock timer
  let timer := t8SetLastCycles forced.2 forced.1
  t8CheckNextCycle (timer.modify0 fun ch => { ch with tcr := val }) forced.2

def setTCSR0 (val : Byte) : Clock → Timer8 → Timer8 × Clock :=
  t8Set0 fun ch => { ch with tcsr := (val &&& (ch.tcsr ||| 0x0f)) ||| 0x10 }

def setTCNT0 (val : Byte) : Clock → Timer8 → Timer8 × Clock :=
  t8Set0 fun ch => { ch with tcnt := val }

def setTCORA0 (val : Byte) : Clock → Timer8 → Timer8 × Clock :=
  t8Set0 fun ch => { ch with tcora := val }

def setTCORB0 (val : Byte) : Clock → Timer8 → Timer8 × Clock :=
  t8Set0 fun ch => { ch with tcorb := val }

def setTCR1 (val : Byte) (clock : Clock) (timer : Timer8) :
    Timer8 × Clock :=
  let forced := t8Force1 clock timer
  let timer := t8SetLastCycles1 forced.2 forced.1
  t8CheckNextCycle (timer.modify1 fun ch => { ch with tcr := val }) forced.2

def setTCSR1 (val : Byte) : Clock → Timer8 → Timer8 × Clock :=
  t8Set1 fun ch => { ch with tcsr := (val &&& ch.tcsr) ||| 0x10 }

def setTCNT1 (val : Byte) : Clock → Timer8 → Timer8 × Clock :=
  t8Set1 fun ch => { ch with tcnt := val }

def setTCORA1 (val : Byte) : Clock → Timer8 → Timer8 × Clock :=
  t8Set1 fun ch => { ch with tcora := val }

def setTCORB1 (val : Byte) : Clock → Timer8 → Timer8 × Clock :=
  t8Set1 fun ch => { ch with tcorb := val }

def setSTCR (val : Byte) (clock : Clock) (timer : Timer8) :
    Timer8 × Clock :=
  if (timer.stcr ^^^ val) &&& 3 = 0 then (timer, clock)
  else
    let forced := t8Force0 clock
      (timer.modify1 fun ch => { ch with myNextCycle := clock.cycles })
    let timer := t8SetLastCycles1 forced.2 (t8SetLastCycles forced.2 forced.1)
    t8CheckNextCycle { timer with stcr := val ||| 0xf8 } forced.2

/-- The `set_` functions. -/
def t8Write (val : Byte) (clock : Clock) (timer : Timer8) :
    T8Register → Timer8 × Clock
  | .TCR0 => setTCR0 val clock timer
  | .TCSR0 => setTCSR0 val clock timer
  | .TCORA0 => setTCORA0 val clock timer
  | .TCORB0 => setTCORB0 val clock timer
  | .TCNT0 => setTCNT0 val clock timer
  | .TCR1 => setTCR1 val clock timer
  | .TCSR1 => setTCSR1 val clock timer
  | .TCORA1 => setTCORA1 val clock timer
  | .TCORB1 => setTCORB1 val clock timer
  | .TCNT1 => setTCNT1 val clock timer
  | .STCR => setSTCR val clock timer

end BrickEmu
