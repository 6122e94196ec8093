import BrickEmu.Timer16Events
import BrickEmu.Timer8Ticks

/-!
# Deadlines of the two timers

The run loop polls for interrupts again at `nextTimerCycle`.  The deadline is
in time when no timer can have an interrupt pending before it.  The system
below is the two timers with the shared clock under register writes, updates
and polls at nondecreasing cycles; the other peripherals appear through the
deadlines they publish.
-/

namespace BrickEmu

open Timer16

structure Timers where
  t16 : Timer16
  t8 : Timer8
  clock : Clock

inductive TimersAction where
  | write16 (register : T16Register) (val : Byte)
  | write8 (register : T8Register) (val : Byte)
  | update16
  | update8
  | checkIrq
  | other (deadline : ℕ)

structure TimersEvent where
  cycle : ℕ
  action : TimersAction

/-- The `update_time` calls of the two timers in the order of
`wait_peripherals`. -/
def Timers.update (timers : Timers) (clock : Clock) : Timers :=
  let updated16 := t16UpdateTime clock timers.t16
  let updated8 := t8UpdateTime updated16.2 timers.t8
  ⟨updated16.1, updated8.1, updated8.2⟩

def Timers.step (event : TimersEvent) (timers : Timers) : Timers :=
  let clock := { timers.clock with cycles := event.cycle }
  match event.action with
  | .write16 .TCR val =>
      let updated := timers.update clock
      { updated with t16 := storeTCR val updated.t16 }
  | .write16 register val =>
      let stored := t16Store val clock timers.t16 register
      { timers with t16 := stored.1, clock := stored.2 }
  | .write8 register val =>
      let written := t8Write val clock timers.t8 register
      { timers with t8 := written.1, clock := written.2 }
  | .update16 =>
      let updated := t16UpdateTime clock timers.t16
      { timers with t16 := updated.1, clock := updated.2 }
  | .update8 =>
      let updated := t8UpdateTime clock timers.t8
      { timers with t8 := updated.1, clock := updated.2 }
  | .checkIrq =>
      timers.update { clock with
        nextTimerCycle := addToCycle clock.cycles MAX_AUTONOMOUS_CYCLES
        nextNmiCycle := addToCycle clock.cycles MAX_AUTONOMOUS_CYCLES }
  | .other deadline =>
      { timers with clock := { clock with
        nextTimerCycle := min deadline clock.nextTimerCycle } }

/-- The timers after a reset of the peripherals. -/
def Timers.reset (timers : Timers) : Timers :=
  ⟨t16Reset timers.clock timers.t16, t8Reset timers.clock timers.t8,
    timers.clock⟩

/-- Runs of the two timers whose steps meet a condition. -/
inductive Timers.Reach (ok : TimersEvent → Timers → Prop) (start : Timers) :
    Timers → Prop
  | start : Timers.Reach ok start start
  | step {timers : Timers} (event : TimersEvent) :
      Timers.Reach ok start timers →
      timers.clock.cycles ≤ event.cycle → ok event timers →
        Timers.Reach ok start (timers.step event)

/-- Whenever a future update would leave an enabled flag set, the poll comes
no later. -/
def Timers.InTime (timers : Timers) : Prop :=
  ∀ e, timers.clock.cycles ≤ e →
    t16CheckIrq (t16UpdateTime { timers.clock with cycles := e }
        timers.t16).1 < 255 ∨
      t8CheckIrq (t8UpdateTime { timers.clock with cycles := e }
        timers.t8).1 < 255 →
    timers.clock.nextTimerCycle ≤ e

/-- Cycles from the last update to the event the deadline is set for. -/
def Timer16.distance (timer : Timer16) : ℕ :=
  timer.nextEvent * 2 ^ freq timer.tcr

/-- The three writes that change the next event without recomputing the
deadline bring it closer while an interrupt is enabled. -/
def BringsForward (timer : Timer16) : TimersAction → Prop
  | .write16 .FRCL val =>
      timer.tier &&& 0x0e ≠ 0 ∧ (setFRCL val timer).distance < timer.distance
  | .write16 .OCRL val =>
      timer.tier &&& 0x0e ≠ 0 ∧ (setOCRL val timer).distance < timer.distance
  | .write16 .TCR val =>
      timer.tier &&& 0x0e ≠ 0 ∧ freq val < freq timer.tcr
  | _ => False

/-- The counter has left `tcorb` behind with CMFB set and no enabled flag, by
more cycles than have passed since cycle 0: the deadline of channel 0 then
lies before cycle 0 and wraps around. -/
def T8Core.Underflows (core : T8Core) : Prop :=
  core.shift ≠ 31 ∧ core.tcsr &&& Timer8.CMFB ≠ 0 ∧
    core.last + (core.tcorb.toNat + 1) * 2 ^ core.shift <
      core.tcnt.toNat * 2 ^ core.shift

instance (core : T8Core) : Decidable core.Underflows :=
  inferInstanceAs (Decidable (_ ∧ _))

/-- The steps under which deadlines are kept. -/
structure TimersOk (event : TimersEvent) (timers : Timers) : Prop where
  forward : ¬BringsForward timers.t16 event.action
  early : ¬(timers.t8.core.catchUp event.cycle).Underflows
  earlyAfter : ¬(timers.step event).t8.core.Underflows
  access0 : ∀ register val, event.action = .write8 register val →
    register ∈ [.TCR0, .TCSR0, .TCORA0, .TCORB0, .TCNT0, .STCR]
  near16 : event.cycle < timers.t16.myLastCycles + 2 ^ 30
  near8 : timers.t8.shift ≠ 31 →
    event.cycle < timers.t8.ch0.lastCycles + 2 ^ 30
  nearDeadline : event.cycle < timers.clock.nextTimerCycle + 2 ^ 30

/-- The deadline is close enough to the present for its 32-bit
differences. -/
structure Clock.Near (clock : Clock) : Prop where
  low : clock.cycles < clock.nextTimerCycle + 2 ^ 30 + 2 ^ 18
  high : clock.nextTimerCycle ≤ clock.cycles + MAX_AUTONOMOUS_CYCLES

/-- A recomputed deadline is not pushed beyond the old one and the
present. -/
structure Clock.Lowered (clock clock' : Clock) : Prop where
  cycles : clock'.cycles = clock.cycles
  deadline : clock'.nextTimerCycle ≤ max clock.nextTimerCycle clock.cycles

structure Timer16.Due (timer : Timer16) (clock : Clock) : Prop where
  event : clock.nextTimerCycle ≤
    max clock.cycles (timer.myLastCycles + timer.distance)
  pending : timer.pending ≠ 0 → clock.nextTimerCycle ≤ clock.cycles

structure Timer8.Due (timer : Timer8) (clock : Clock) : Prop where
  event : timer.shift ≠ 31 →
    clock.nextTimerCycle ≤ max clock.cycles timer.ch0.myNextCycle
  pending : timer.pending ≠ 0 → clock.nextTimerCycle ≤ clock.cycles

theorem Timer16.Due.mono {timer : Timer16} {clock clock' : Clock}
    (hdue : timer.Due clock) (hcycles : clock.cycles ≤ clock'.cycles)
    (hdeadline : clock'.nextTimerCycle ≤
      max clock.nextTimerCycle clock'.cycles) : timer.Due clock' where
  event := by
    have := hdue.event
    omega
  pending hpending := by
    have := hdue.pending hpending
    omega

theorem Timer8.Due.mono {timer : Timer8} {clock clock' : Clock}
    (hdue : timer.Due clock) (hcycles : clock.cycles ≤ clock'.cycles)
    (hdeadline : clock'.nextTimerCycle ≤
      max clock.nextTimerCycle clock'.cycles) : timer.Due clock' where
  event hrunning := by
    have := hdue.event hrunning
    omega
  pending hpending := by
    have := hdue.pending hpending
    omega

theorem Timer16.distance_le (timer : Timer16) : timer.distance ≤ 2 ^ 21 := by
  have hevent := nextEvent_le_overflow timer
  have hfreq := freq_pos_le timer.tcr
  have hpow : 2 ^ freq timer.tcr ≤ 2 ^ 5 :=
    Nat.pow_le_pow_right (by omega) hfreq.2
  calc timer.distance ≤ 0x10000 * 2 ^ 5 :=
        Nat.mul_le_mul (by omega) hpow
    _ = 2 ^ 21 := by norm_num

/-- What the deadline computation of the 16-bit timer achieves. -/
theorem t16CheckNextCycle_spec {timer : Timer16} {clock : Clock}
    (hnear : clock.Near) (hlast : timer.myLastCycles ≤ clock.cycles)
    (hgap : clock.cycles < timer.myLastCycles + 2 ^ 30) :
    clock.Lowered (t16CheckNextCycle timer clock) ∧
      (t16CheckNextCycle timer clock).Near ∧
      timer.Due (t16CheckNextCycle timer clock) := by
  obtain ⟨hlow, hhigh⟩ := hnear
  simp only [MAX_AUTONOMOUS_CYCLES] at hhigh
  have hdistance := timer.distance_le
  have hnext : int32 ((timer.nextEvent * 2 ^ freq timer.tcr : ℕ) +
      timer.myLastCycles - clock.cycles) =
        (timer.distance : ℤ) + timer.myLastCycles - clock.cycles := by
    change int32 ((timer.distance : ℤ) + _ - _) = _
    exact int32_eq_self (by omega) (by omega)
  have hold : int32 ((clock.nextTimerCycle : ℤ) - clock.cycles) =
      (clock.nextTimerCycle : ℤ) - clock.cycles :=
    int32_eq_self (by omega) (by omega)
  have htarget : addToCycle clock.cycles
      ((timer.distance : ℤ) + timer.myLastCycles - clock.cycles) =
        timer.myLastCycles + timer.distance := by
    rw [addToCycle, uint64_eq_toNat (by omega)]
    omega
  unfold t16CheckNextCycle
  simp only [hnext, hold, htarget]
  split_ifs with hpending hless
  · exact ⟨⟨rfl, by simp⟩, ⟨by simp only; omega, by simp⟩,
      ⟨by simp, fun _ => le_rfl⟩⟩
  · refine ⟨⟨rfl, ?_⟩, ⟨?_, ?_⟩, ⟨?_, fun h => absurd h hpending⟩⟩
    all_goals simp only [MAX_AUTONOMOUS_CYCLES]
    all_goals omega
  · refine ⟨⟨rfl, ?_⟩, ⟨hlow, hhigh⟩, ⟨?_, fun h => absurd h hpending⟩⟩
    all_goals omega

/-- The range of the event distance of channel 0; only a compare match B that
the counter has already left makes it negative. -/
theorem T8Channel.nextEvent_range (channel : T8Channel) (shift : ℕ)
    (hshift : shift ≤ 10) :
    channel.nextEvent shift ≤ 2 ^ 18 ∧ -2 ^ 18 ≤ channel.nextEvent shift ∧
      (0 ≤ channel.nextEvent shift ∨
        (channel.tcsr &&& Timer8.CMFB ≠ 0 ∧
          channel.nextEvent shift =
            ((channel.tcorb.toNat : ℤ) + 1 - channel.tcnt.toNat) *
              2 ^ shift)) := by
  have hcnt := channel.tcnt.isLt
  have htcorb := channel.tcorb.isLt
  have hpos : (0 : ℤ) < 2 ^ shift := by positivity
  have hpow : (2 : ℤ) ^ shift ≤ 2 ^ 10 :=
    pow_le_pow_right₀ (by norm_num) hshift
  have hover : 0 < ((0x100 : ℤ) - channel.tcnt.toNat) * 2 ^ shift :=
    mul_pos (by omega) hpos
  have hmatchA : channel.tcnt < channel.tcora →
      0 < ((channel.tcora.toNat : ℤ) + 1 - channel.tcnt.toNat) *
        2 ^ shift := by
    intro hlt
    have hlt : channel.tcnt.toNat < channel.tcora.toNat := hlt
    exact mul_pos (by omega) hpos
  have hmatchB : -2 ^ 18 ≤
      ((channel.tcorb.toNat : ℤ) + 1 - channel.tcnt.toNat) * 2 ^ shift := by
    nlinarith
  simp only [T8Channel.nextEvent]
  split_ifs with h1 h2 h3 h4 h5 h6 h7 <;> refine ⟨?_, ?_, ?_⟩ <;> grind

theorem t8_target {timer : Timer8} (hrunning : timer.shift ≠ 31)
    (hearly : ¬timer.core.Underflows) :
    0 ≤ (timer.ch0.lastCycles : ℤ) + timer.ch0.nextEvent timer.shift := by
  have hcore : timer.core.shift ≠ 31 := hrunning
  have hshift := T8Core.shift_le hcore
  obtain ⟨-, -, hpos | ⟨hflag, hnext⟩⟩ :=
    timer.ch0.nextEvent_range timer.shift hshift.2
  · omega
  · rw [hnext]
    by_contra hneg
    refine hearly ⟨hrunning, hflag, ?_⟩
    have hcast : (timer.ch0.lastCycles : ℤ) +
        ((timer.ch0.tcorb.toNat : ℤ) + 1) * 2 ^ timer.shift <
          timer.ch0.tcnt.toNat * 2 ^ timer.shift := by
      have hsub : ((timer.ch0.tcorb.toNat : ℤ) + 1 -
          timer.ch0.tcnt.toNat) * 2 ^ timer.shift =
            ((timer.ch0.tcorb.toNat : ℤ) + 1) * 2 ^ timer.shift -
              timer.ch0.tcnt.toNat * 2 ^ timer.shift := by ring
      omega
    exact_mod_cast hcast

/-- What the deadline computation of the 8-bit timer achieves. -/
theorem t8CheckNextCycle_spec {timer : Timer8} {clock : Clock}
    (hnear : clock.Near) (hlast : timer.ch0.lastCycles ≤ clock.cycles)
    (hgap : timer.shift ≠ 31 →
      clock.cycles < timer.ch0.lastCycles + 2 ^ 30)
    (hearly : ¬timer.core.Underflows) :
    clock.Lowered (t8CheckNextCycle timer clock).2 ∧
      (t8CheckNextCycle timer clock).2.Near ∧
      (t8CheckNextCycle timer clock).1.Due
        (t8CheckNextCycle timer clock).2 := by
  obtain ⟨hlow, hhigh⟩ := hnear
  simp only [MAX_AUTONOMOUS_CYCLES] at hhigh
  simp only [t8CheckNextCycle]
  by_cases hpending : timer.pending ≠ 0
  · rw [if_pos hpending]
    exact ⟨⟨rfl, by simp⟩, ⟨by simp only; omega, by simp⟩,
      ⟨fun _ => by simp, fun _ => le_rfl⟩⟩
  rw [if_neg hpending]
  by_cases hstopped : timer.shift = 31
  · rw [if_pos hstopped]
    exact ⟨⟨rfl, by simp⟩, ⟨hlow, hhigh⟩,
      ⟨fun h => absurd hstopped h, fun h => absurd h hpending⟩⟩
  rw [if_neg hstopped]
  have hgap := hgap hstopped
  have hcore : timer.core.shift ≠ 31 := hstopped
  have hshift := T8Core.shift_le hcore
  have htarget := t8_target hstopped hearly
  obtain ⟨hupper, hlower, -⟩ :=
    timer.ch0.nextEvent_range timer.shift hshift.2
  have hold : int32 ((clock.nextTimerCycle : ℤ) - timer.ch0.lastCycles) =
      (clock.nextTimerCycle : ℤ) - timer.ch0.lastCycles :=
    int32_eq_self (by omega) (by omega)
  rw [hold, uint64_eq_toNat htarget]
  split_ifs with hless
  · refine ⟨⟨rfl, ?_⟩, ⟨?_, ?_⟩,
      ⟨fun _ => le_max_right _ _, fun h => absurd h hpending⟩⟩
    all_goals simp only [MAX_AUTONOMOUS_CYCLES]
    all_goals omega
  · refine ⟨⟨rfl, ?_⟩, ⟨hlow, hhigh⟩,
      ⟨fun _ => ?_, fun h => absurd h hpending⟩⟩
    all_goals simp only
    all_goals omega

/-- Bits 7 to 4 of TCSR belong to the input capture pins, which have no
source; the counter does not touch them. -/
theorem t16Count_capture {cycles : ℕ} {timer : Timer16}
    (hlast : timer.myLastCycles ≤ cycles)
    (hgap : cycles < timer.myLastCycles + 2 ^ 31) :
    (t16Count cycles timer).tcsr &&& 0xf0 = timer.tcsr &&& 0xf0 := by
  have hA : timer.counter.flagA &&& 0xf0 = 0 :=
    show OCFA &&& 0xf0 = 0 by decide
  have hB : timer.counter.flagB &&& 0xf0 = 0 :=
    show OCFB &&& 0xf0 = 0 by decide
  have hoverflow : timer.counter.overflow &&& 0xf0 = 0 :=
    show OVF &&& 0xf0 = 0 by decide
  rw [t16Count_eq_catchUp hlast hgap]
  exact CompareCounter.iterate_tick_and hA hB hoverflow _ _

/-- One update of the 16-bit timer. -/
structure T16Updated (timer timer' : Timer16) (clock clock' : Clock) :
    Prop where
  lowered : clock.Lowered clock'
  near : clock'.Near
  due : timer'.Due clock'
  last : timer'.myLastCycles ≤ clock.cycles
  progress : timer.myLastCycles ≤ timer'.myLastCycles
  capture : timer'.tcsr &&& 0xf0 = timer.tcsr &&& 0xf0
  tier : timer'.tier = timer.tier
  tcr : timer'.tcr = timer.tcr

theorem t16UpdateTime_spec {timer : Timer16} {clock : Clock}
    (hnear : clock.Near) (hlast : timer.myLastCycles ≤ clock.cycles)
    (hgap : clock.cycles < timer.myLastCycles + 2 ^ 30) :
    T16Updated timer (t16UpdateTime clock timer).1 clock
      (t16UpdateTime clock timer).2 := by
  have hcatch : t16Count clock.cycles timer = timer.catchUp clock.cycles :=
    t16Count_eq_catchUp hlast (by omega)
  have hlastNew : (t16Count clock.cycles timer).myLastCycles ≤
      clock.cycles := by
    rw [hcatch]
    exact catchUp_last_le hlast
  have hprogress : timer.myLastCycles ≤
      (t16Count clock.cycles timer).myLastCycles := by
    rw [hcatch]
    exact le_catchUp_last _ _
  obtain ⟨hlowered, hnear', hdue⟩ :=
    t16CheckNextCycle_spec hnear hlastNew (by omega)
  exact ⟨hlowered, hnear', hdue, hlastNew, hprogress,
    t16Count_capture hlast (by omega), rfl, rfl⟩

/-- One update of the 8-bit timer. -/
structure T8Updated (timer' : Timer8) (clock clock' : Clock) : Prop where
  lowered : clock.Lowered clock'
  near : clock'.Near
  due : timer'.Due clock'
  last : timer'.ch0.lastCycles ≤ clock.cycles
  early : ¬timer'.core.Underflows

/-- A recomputed deadline after the registers have changed. -/
theorem t8_recheck_spec {changed : Timer8} {clock clock' : Clock}
    (hlowered : clock.Lowered clock') (hnear : clock'.Near)
    (hlast : changed.ch0.lastCycles ≤ clock.cycles)
    (hgap : changed.shift ≠ 31 →
      clock.cycles < changed.ch0.lastCycles + 2 ^ 30)
    (hearly : ¬changed.core.Underflows) :
    T8Updated (t8CheckNextCycle changed clock').1 clock
      (t8CheckNextCycle changed clock').2 := by
  have hcycles := hlowered.cycles
  obtain ⟨hlowered', hnear', hdue⟩ := t8CheckNextCycle_spec hnear
    (hcycles ▸ hlast) (hcycles ▸ hgap) hearly
  have hcore := t8CheckNextCycle_core changed clock'
  refine ⟨⟨hlowered'.cycles.trans hcycles, ?_⟩, hnear', hdue, ?_, ?_⟩
  · have hfirst := hlowered.deadline
    have hsecond := hlowered'.deadline
    omega
  · have := congrArg T8Core.last hcore
    exact le_of_eq_of_le this hlast
  · rwa [hcore]

theorem Clock.Lowered.refl (clock : Clock) : clock.Lowered clock :=
  ⟨rfl, le_max_left _ _⟩

/-- The count of an update lies between the last one and the present. -/
theorem T8Core.catchUp_gap {core : T8Core} {now bound : ℕ}
    (hlast : core.last ≤ now)
    (hgap : core.shift ≠ 31 → now < core.last + bound) (hbound : 0 < bound) :
    now < (core.catchUp now).last + bound := by
  by_cases hstopped : core.shift = 31
  · rw [T8Core.catchUp, if_pos hstopped]
    exact Nat.lt_add_of_pos_right hbound
  · have := le_catchUp_last hlast
    have := hgap hstopped
    omega

theorem t8UpdateTime_spec (timer : Timer8) {clock : Clock}
    (hnear : clock.Near) (hlast : timer.ch0.lastCycles ≤ clock.cycles)
    (hgap : timer.shift ≠ 31 →
      clock.cycles < timer.ch0.lastCycles + 2 ^ 30)
    (hearly : ¬timer.core.Underflows)
    (hcatch : ¬(timer.core.catchUp clock.cycles).Underflows) :
    T8Updated (t8UpdateTime clock timer).1 clock
      (t8UpdateTime clock timer).2 := by
  by_cases hgate : timer.shift ≠ 31 →
      timer.ch0.myNextCycle ≤ clock.cycles
  · have hcore : (t8Count clock.cycles timer).core =
        timer.core.catchUp clock.cycles :=
      t8Count_core hlast (fun hrunning => by have := hgap hrunning; omega)
        hgate
    have hlastEq : (t8Count clock.cycles timer).ch0.lastCycles =
        (timer.core.catchUp clock.cycles).last := congrArg T8Core.last hcore
    refine t8_recheck_spec (Clock.Lowered.refl clock) hnear ?_ (fun _ => ?_)
      (hcore ▸ hcatch)
    · rw [hlastEq]
      exact T8Core.catchUp_last_le hlast
    · rw [hlastEq]
      exact T8Core.catchUp_gap hlast hgap (by norm_num)
  · rw [Classical.not_imp, not_le] at hgate
    unfold t8UpdateTime
    rw [t8Count_eq_self hgate.1 hgate.2]
    exact t8_recheck_spec (Clock.Lowered.refl clock) hnear hlast hgap hearly

/-- The setters of channel 0: a forced update, a change of registers that
keeps the reference cycle or moves it to the present, a new deadline. -/
theorem t8_force_change_spec (timer : Timer8) {changed : Timer8}
    {clock : Clock} (hnear : clock.Near) (hlast : timer.ch0.lastCycles ≤ clock.cycles)
    (hgap : timer.shift ≠ 31 →
      clock.cycles < timer.ch0.lastCycles + 2 ^ 30)
    (hcatch : ¬(timer.core.catchUp clock.cycles).Underflows)
    (hchanged : changed.ch0.lastCycles = clock.cycles ∨
      changed.ch0.lastCycles = (t8Force0 clock timer).1.ch0.lastCycles)
    (hafter : ¬changed.core.Underflows) :
    T8Updated (t8CheckNextCycle changed (t8Force0 clock timer).2).1
      clock (t8CheckNextCycle changed (t8Force0 clock timer).2).2 := by
  have hgap31 : timer.shift ≠ 31 →
      clock.cycles < timer.ch0.lastCycles + 2 ^ 31 :=
    fun hrunning => by have := hgap hrunning; omega
  have hcount : (t8Count clock.cycles { timer with
      ch0 := { timer.ch0 with myNextCycle := clock.cycles } }).core =
        timer.core.catchUp clock.cycles :=
    t8Count_core hlast hgap31 (fun _ => le_rfl)
  have hforced : (t8Force0 clock timer).1.ch0.lastCycles =
      (timer.core.catchUp clock.cycles).last :=
    congrArg T8Core.last (t8Force0_core hlast hgap31)
  have hlastCount : (t8Count clock.cycles { timer with
      ch0 := { timer.ch0 with myNextCycle := clock.cycles } }).ch0.lastCycles =
        (timer.core.catchUp clock.cycles).last := congrArg T8Core.last hcount
  have hle : (timer.core.catchUp clock.cycles).last ≤ clock.cycles :=
    T8Core.catchUp_last_le hlast
  have hnearLast : clock.cycles <
      (timer.core.catchUp clock.cycles).last + 2 ^ 30 :=
    T8Core.catchUp_gap hlast hgap (by norm_num)
  obtain ⟨hlowered, hnear', -⟩ := t8CheckNextCycle_spec hnear
    (hlastCount ▸ hle) (fun _ => hlastCount ▸ hnearLast) (hcount ▸ hcatch)
  refine t8_recheck_spec hlowered hnear' ?_ (fun _ => ?_) hafter
  all_goals rcases hchanged with hnow | hkept
  all_goals omega

theorem t8Write_spec {timer : Timer8} {clock : Clock}
    {register : T8Register} {val : Byte} (hnear : clock.Near)
    (hlast : timer.ch0.lastCycles ≤ clock.cycles)
    (hgap : timer.shift ≠ 31 →
      clock.cycles < timer.ch0.lastCycles + 2 ^ 30)
    (hdue : timer.Due clock)
    (hcatch : ¬(timer.core.catchUp clock.cycles).Underflows)
    (hafter : ¬(t8Write val clock timer register).1.core.Underflows)
    (haccess : register ∈
      [.TCR0, .TCSR0, .TCORA0, .TCORB0, .TCNT0, .STCR]) :
    T8Updated (t8Write val clock timer register).1 clock
      (t8Write val clock timer register).2 := by
  cases register with
  | TCSR0 | TCORA0 | TCORB0 | TCNT0 =>
      refine t8_force_change_spec timer hnear hlast hgap hcatch (Or.inr rfl) ?_
      simpa only [t8Write, setTCSR0, setTCORA0, setTCORB0, setTCNT0, t8Set0,
        t8CheckNextCycle_core] using hafter
  | TCR0 =>
      refine t8_force_change_spec timer hnear hlast hgap hcatch
        (Or.inl (t8Force0_cycles timer clock)) ?_
      simpa only [t8Write, setTCR0, t8CheckNextCycle_core] using hafter
  | STCR =>
      simp only [t8Write, setSTCR] at hafter ⊢
      by_cases hsame : (timer.stcr ^^^ val) &&& 3 = 0
      · rw [if_pos hsame] at hafter ⊢
        exact ⟨Clock.Lowered.refl clock, hnear, hdue, hlast, hafter⟩
      · rw [if_neg hsame] at hafter ⊢
        rw [t8CheckNextCycle_core] at hafter
        exact t8_force_change_spec
          (timer.modify1 fun ch => { ch with myNextCycle := clock.cycles })
          hnear hlast hgap hcatch
          (Or.inl (t8Force0_cycles _ clock)) hafter
  | TCR1 | TCSR1 | TCORA1 | TCORB1 | TCNT1 => simp at haccess

/-- The invariant of runs: each timer has a deadline for its next event. -/
structure Timers.Scheduled (timers : Timers) : Prop where
  last16 : timers.t16.myLastCycles ≤ timers.clock.cycles
  near16 : timers.clock.cycles < timers.t16.myLastCycles + 2 ^ 30
  last8 : timers.t8.ch0.lastCycles ≤ timers.clock.cycles
  high : timers.clock.nextTimerCycle ≤
    timers.clock.cycles + MAX_AUTONOMOUS_CYCLES
  capture : timers.t16.tcsr &&& 0xf0 = 0
  due16 : timers.t16.tier &&& 0x0e = 0 ∨ timers.t16.Due timers.clock
  due8 : timers.t8.Due timers.clock
  early : ¬timers.t8.core.Underflows

/-- A step that leaves the 8-bit timer alone keeps the invariant when it
deals with the 16-bit timer. -/
theorem Timers.Scheduled.change16 {timers : Timers} {timer : Timer16}
    {clock' : Clock} (clock : Clock) (hscheduled : timers.Scheduled)
    (hcycles : timers.clock.cycles ≤ clock.cycles)
    (hsame : clock.nextTimerCycle = timers.clock.nextTimerCycle)
    (hlowered : clock.Lowered clock') (hnear : clock'.Near)
    (hlast : timer.myLastCycles ≤ clock.cycles)
    (hgap : clock.cycles < timer.myLastCycles + 2 ^ 30)
    (hcapture : timer.tcsr &&& 0xf0 = 0)
    (hdue : timer.tier &&& 0x0e = 0 ∨ timer.Due clock') :
    Timers.Scheduled ⟨timer, timers.t8, clock'⟩ where
  last16 := hlowered.cycles ▸ hlast
  near16 := hlowered.cycles ▸ hgap
  last8 := hlowered.cycles ▸ hscheduled.last8.trans hcycles
  high := hnear.high
  capture := hcapture
  due16 := hdue
  due8 := hscheduled.due8.mono (hlowered.cycles ▸ hcycles) (by
    have := hlowered.deadline
    have := hlowered.cycles
    simp only
    omega)
  early := hscheduled.early

theorem Timers.Scheduled.change8 {timers : Timers} {timer : Timer8}
    {clock' : Clock} (clock : Clock) (hscheduled : timers.Scheduled)
    (hcycles : timers.clock.cycles ≤ clock.cycles)
    (hsame : clock.nextTimerCycle = timers.clock.nextTimerCycle)
    (hgap : clock.cycles < timers.t16.myLastCycles + 2 ^ 30)
    (hupdated : T8Updated timer clock clock') :
    Timers.Scheduled ⟨timers.t16, timer, clock'⟩ := by
  have hcycles' := hupdated.lowered.cycles
  have hdeadline := hupdated.lowered.deadline
  refine ⟨?_, ?_, hcycles' ▸ hupdated.last, hupdated.near.high,
    hscheduled.capture, ?_, hupdated.due, hupdated.early⟩
  · exact hcycles' ▸ hscheduled.last16.trans hcycles
  · exact hcycles' ▸ hgap
  · refine hscheduled.due16.imp_right fun hdue => ?_
    exact hdue.mono (hcycles' ▸ hcycles) (by simp only; omega)

/-- Updating both timers establishes all deadlines, whatever the deadline was
before. -/
theorem Timers.update_spec (timers : Timers) (clock : Clock)
    (hnear : clock.Near)
    (hlast16 : timers.t16.myLastCycles ≤ clock.cycles)
    (hgap16 : clock.cycles < timers.t16.myLastCycles + 2 ^ 30)
    (hlast8 : timers.t8.ch0.lastCycles ≤ clock.cycles)
    (hgap8 : timers.t8.shift ≠ 31 →
      clock.cycles < timers.t8.ch0.lastCycles + 2 ^ 30)
    (hcapture : timers.t16.tcsr &&& 0xf0 = 0)
    (hearly : ¬timers.t8.core.Underflows)
    (hcatch : ¬(timers.t8.core.catchUp clock.cycles).Underflows) :
    (timers.update clock).Scheduled ∧
      (timers.update clock).t16.Due (timers.update clock).clock ∧
      (timers.update clock).t16.tier = timers.t16.tier ∧
      (timers.update clock).t16.tcr = timers.t16.tcr := by
  have h16 := t16UpdateTime_spec hnear hlast16 hgap16
  have hcycles16 := h16.lowered.cycles
  have h8 := t8UpdateTime_spec timers.t8 h16.near
    (hcycles16 ▸ hlast8) (hcycles16 ▸ hgap8) hearly (hcycles16 ▸ hcatch)
  have hcycles8 := h8.lowered.cycles.trans hcycles16
  have hprogress := h16.progress
  have hlast := h16.last
  have hdeadline := h8.lowered.deadline
  have hdue : (t16UpdateTime clock timers.t16).1.Due
      (timers.update clock).clock :=
    h16.due.mono (le_of_eq h8.lowered.cycles.symm)
      (by
        have := h8.lowered.cycles
        change (t8UpdateTime _ _).2.nextTimerCycle ≤ max _
          (t8UpdateTime _ _).2.cycles
        omega)
  refine ⟨⟨?_, ?_, ?_, h8.near.high, ?_, Or.inr hdue, h8.due, h8.early⟩,
    hdue, h16.tier, h16.tcr⟩
  · exact hcycles8 ▸ hlast
  · change (t8UpdateTime _ _).2.cycles < _
    rw [hcycles8]
    exact lt_of_lt_of_le hgap16 (Nat.add_le_add_right hprogress _)
  · change _ ≤ (t8UpdateTime _ _).2.cycles
    rw [hcycles8, ← hcycles16]
    exact h8.last
  · exact h16.capture.trans hcapture

/-- A store that keeps status, enable bits and reference cycle and does not
bring the event closer keeps the deadline. -/
theorem Timer16.Due.store {timer timer' : Timer16} {clock : Clock}
    (hdue : timer.Due clock) (hlast : timer'.myLastCycles = timer.myLastCycles)
    (hpending : timer'.pending = timer.pending)
    (hdistance : timer.distance ≤ timer'.distance) : timer'.Due clock where
  event := by
    have := hdue.event
    rw [hlast]
    omega
  pending hset := hdue.pending (hpending ▸ hset)

theorem setTCSR_capture {tcsr val : Byte} (hcapture : tcsr &&& 0xf0 = 0) :
    ((tcsr &&& val) ||| (val &&& 1)) &&& 0xf0 = 0 := by
  grind

theorem TimersOk.near {event : TimersEvent} {timers : Timers}
    (hok : TimersOk event timers) (hscheduled : timers.Scheduled)
    (hcycle : timers.clock.cycles ≤ event.cycle) :
    Clock.Near { timers.clock with cycles := event.cycle } where
  low := by
    have := hok.nearDeadline
    simp only
    omega
  high := by
    have := hscheduled.high
    simp only
    omega

theorem BringsForward.kept {timer timer' : Timer16} {clock : Clock}
    (hdue : timer.tier &&& 0x0e = 0 ∨ timer.Due clock)
    (hforward : ¬(timer.tier &&& 0x0e ≠ 0 ∧
      timer'.distance < timer.distance))
    (htier : timer'.tier = timer.tier)
    (hlast : timer'.myLastCycles = timer.myLastCycles)
    (hpending : timer'.pending = timer.pending) :
    timer'.tier &&& 0x0e = 0 ∨ timer'.Due clock := by
  by_cases hquiet : timer.tier &&& 0x0e = 0
  · exact Or.inl (htier ▸ hquiet)
  · have hdistance : timer.distance ≤ timer'.distance := by
      by_contra hlt
      exact hforward ⟨hquiet, not_le.mp hlt⟩
    exact Or.inr ((hdue.resolve_left hquiet).store hlast hpending hdistance)

theorem Timers.write16_scheduled {timers : Timers} {cycle : ℕ}
    {register : T16Register} {val : Byte} (hscheduled : timers.Scheduled)
    (hcycle : timers.clock.cycles ≤ cycle)
    (hok : TimersOk ⟨cycle, .write16 register val⟩ timers) :
    (timers.step ⟨cycle, .write16 register val⟩).Scheduled := by
  set clock : Clock := { timers.clock with cycles := cycle } with hclock
  have hnear : clock.Near := hok.near hscheduled hcycle
  have hlast : timers.t16.myLastCycles ≤ clock.cycles :=
    hscheduled.last16.trans hcycle
  have hgap : clock.cycles < timers.t16.myLastCycles + 2 ^ 30 := hok.near16
  have hdue : timers.t16.tier &&& 0x0e = 0 ∨ timers.t16.Due clock :=
    hscheduled.due16.imp_right fun hdue =>
      hdue.mono hcycle (le_max_left _ _)
  have hkeep : ∀ timer : Timer16,
      timer.myLastCycles = timers.t16.myLastCycles →
      timer.tcsr &&& 0xf0 = 0 →
      (timer.tier &&& 0x0e = 0 ∨ timer.Due clock) →
        Timers.Scheduled ⟨timer, timers.t8, clock⟩ := by
    intro timer hlastEq hcapture hdue
    exact hscheduled.change16 clock hcycle rfl (Clock.Lowered.refl clock) hnear
      (hlastEq ▸ hlast) (hlastEq ▸ hgap) hcapture hdue
  have hcheck : ∀ timer : Timer16,
      timer.myLastCycles = timers.t16.myLastCycles →
      timer.tcsr &&& 0xf0 = 0 →
        Timers.Scheduled
          ⟨timer, timers.t8, t16CheckNextCycle timer clock⟩ := by
    intro timer hlastEq hcapture
    obtain ⟨hlowered, hnear', hdue'⟩ :=
      t16CheckNextCycle_spec hnear (hlastEq ▸ hlast) (hlastEq ▸ hgap)
    exact hscheduled.change16 clock hcycle rfl hlowered hnear' (hlastEq ▸ hlast)
      (hlastEq ▸ hgap) hcapture (Or.inr hdue')
  cases register with
  | TIER => exact hcheck _ rfl hscheduled.capture
  | TCSR => exact hcheck _ rfl (setTCSR_capture hscheduled.capture)
  | FRCH | OCRH | TOCR =>
      refine hkeep _ rfl hscheduled.capture ?_
      exact hdue.imp_right fun hdue => hdue.store rfl rfl le_rfl
  | FRCL =>
      exact hkeep _ rfl hscheduled.capture
        (BringsForward.kept hdue hok.forward rfl rfl rfl)
  | OCRL =>
      have hfields : ∀ timer : Timer16,
          (setOCRL val timer).tier = timer.tier ∧
            (setOCRL val timer).tcsr = timer.tcsr ∧
            (setOCRL val timer).myLastCycles = timer.myLastCycles := by
        intro timer
        unfold setOCRL
        split_ifs <;> exact ⟨rfl, rfl, rfl⟩
      obtain ⟨htier, htcsr, hlastEq⟩ := hfields timers.t16
      refine hkeep _ hlastEq (htcsr ▸ hscheduled.capture) ?_
      refine BringsForward.kept hdue hok.forward htier hlastEq ?_
      change (setOCRL val timers.t16).pending = _
      simp only [Timer16.pending, htier, htcsr]
  | TCR =>
      obtain ⟨hupdated, hdueNew, htier, htcr⟩ := Timers.update_spec timers clock
        hnear hlast hgap
        (hscheduled.last8.trans hcycle) hok.near8 hscheduled.capture
        hscheduled.early hok.early
      refine ⟨hupdated.last16, hupdated.near16, hupdated.last8,
        hupdated.high, hupdated.capture, ?_, hupdated.due8, hupdated.early⟩
      refine BringsForward.kept (Or.inr hdueNew) ?_ rfl rfl rfl
      rintro ⟨henabled, hless⟩
      rw [htier] at henabled
      refine hok.forward ⟨henabled, ?_⟩
      by_contra hfreq
      refine absurd hless (not_lt.mpr ?_)
      refine Nat.mul_le_mul_left _ (Nat.pow_le_pow_right (by omega) ?_)
      rw [htcr]
      exact not_lt.mp hfreq

/-- One step keeps every deadline. -/
theorem Timers.step_scheduled {timers : Timers} {event : TimersEvent}
    (hscheduled : timers.Scheduled)
    (hcycle : timers.clock.cycles ≤ event.cycle)
    (hok : TimersOk event timers) : (timers.step event).Scheduled := by
  obtain ⟨cycle, action⟩ := event
  change timers.clock.cycles ≤ cycle at hcycle
  set clock : Clock := { timers.clock with cycles := cycle } with hclock
  have hhigh := hscheduled.high
  have hnear : clock.Near := hok.near hscheduled hcycle
  have hlast16 : timers.t16.myLastCycles ≤ clock.cycles :=
    hscheduled.last16.trans hcycle
  have hlast8 : timers.t8.ch0.lastCycles ≤ clock.cycles :=
    hscheduled.last8.trans hcycle
  cases action with
  | write16 register val => exact Timers.write16_scheduled hscheduled hcycle hok
  | write8 register val =>
      have hdue : timers.t8.Due clock :=
        hscheduled.due8.mono hcycle (le_max_left _ _)
      exact hscheduled.change8 clock hcycle rfl hok.near16
        (t8Write_spec hnear hlast8 hok.near8 hdue hok.early hok.earlyAfter
          (hok.access0 register val rfl))
  | update16 =>
      have hupdated := t16UpdateTime_spec hnear hlast16 hok.near16
      exact hscheduled.change16 clock hcycle rfl hupdated.lowered hupdated.near
        hupdated.last
        (lt_of_lt_of_le hok.near16
          (Nat.add_le_add_right hupdated.progress _))
        (hupdated.capture.trans hscheduled.capture) (Or.inr hupdated.due)
  | update8 =>
      exact hscheduled.change8 clock hcycle rfl hok.near16
        (t8UpdateTime_spec timers.t8 hnear hlast8 hok.near8 hscheduled.early hok.early)
  | checkIrq =>
      refine (Timers.update_spec timers { clock with
        nextTimerCycle := addToCycle clock.cycles MAX_AUTONOMOUS_CYCLES
        nextNmiCycle := addToCycle clock.cycles MAX_AUTONOMOUS_CYCLES }
        ?_ hlast16 hok.near16 hlast8 hok.near8
        hscheduled.capture hscheduled.early hok.early).1
      constructor <;>
        simp only [addToCycle, ← Nat.cast_add, uint64_natCast,
          MAX_AUTONOMOUS_CYCLES]
      · omega
      · exact le_rfl
  | other deadline =>
      have hdeadline : min deadline timers.clock.nextTimerCycle ≤
          timers.clock.nextTimerCycle := min_le_right _ _
      refine ⟨hlast16, hok.near16, hlast8, ?_, hscheduled.capture, ?_, ?_,
        hscheduled.early⟩
      · exact (hdeadline.trans hhigh).trans (Nat.add_le_add_right hcycle _)
      · exact hscheduled.due16.imp_right fun hdue =>
          hdue.mono hcycle (hdeadline.trans (le_max_left _ _))
      · exact hscheduled.due8.mono hcycle
          (hdeadline.trans (le_max_left _ _))

theorem Timers.reset_shift (timers : Timers) :
    timers.reset.t8.shift = 31 := by
  change Timer8.freq (((0 : Byte) &&& 7) |||
    (((0xf8 : Byte) &&& 1) <<< 3)).toNat = 31
  decide

theorem Timers.reset_pending (timers : Timers) :
    timers.reset.t8.pending = 0 := by
  change (((0x10 : Byte) &&& 0) ||| ((0x10 : Byte) &&& 0)) &&& 0xe0 = 0
  decide

theorem Timers.reset_scheduled {timers : Timers}
    (hdeadline : timers.clock.nextTimerCycle ≤
      timers.clock.cycles + MAX_AUTONOMOUS_CYCLES) :
    timers.reset.Scheduled where
  last16 := le_rfl
  near16 := Nat.lt_add_of_pos_right (by norm_num)
  last8 := le_rfl
  high := hdeadline
  capture := show (0 : Byte) &&& 0xf0 = 0 by decide
  due16 := Or.inl (show (1 : Byte) &&& 0x0e = 0 by decide)
  due8 := ⟨fun hrunning => absurd (reset_shift timers) hrunning,
    fun hpending => absurd (reset_pending timers) hpending⟩
  early := fun hunder => absurd (reset_shift timers) hunder.1

/-- In every reachable state the deadlines are set. -/
theorem Timers.Reach.scheduled {start timers : Timers}
    (hreach : Timers.Reach TimersOk start.reset timers)
    (hdeadline : start.clock.nextTimerCycle ≤
      start.clock.cycles + MAX_AUTONOMOUS_CYCLES) :
    timers.Scheduled := by
  induction hreach with
  | start => exact Timers.reset_scheduled hdeadline
  | step event _ hcycle hok ih => exact Timers.step_scheduled ih hcycle hok

theorem t16CheckIrq_lt {timer : Timer16} (hirq : t16CheckIrq timer < 255) :
    timer.pending ≠ 0 := by
  intro hpending
  rw [t16CheckIrq, hpending] at hirq
  revert hirq
  decide

theorem t8CheckIrq_lt {timer : Timer8} (hirq : t8CheckIrq timer < 255) :
    timer.pending ≠ 0 := by
  intro hpending
  have hzero : timer.ch0.tcsr &&& timer.ch0.tcr &&& 0xe0#8 = 0 := by
    unfold Timer8.pending at hpending
    grind
  have hone : timer.ch1.tcsr &&& timer.ch1.tcr &&& 0xe0#8 = 0 := by
    unfold Timer8.pending at hpending
    grind
  rw [t8CheckIrq, hzero, hone] at hirq
  revert hirq
  decide

/-- With no interrupt enabled the 16-bit timer never has one pending. -/
theorem t16_disabled_quiet {timer : Timer16} {e : ℕ}
    (hlast : timer.myLastCycles ≤ e) (hgap : e < timer.myLastCycles + 2 ^ 31)
    (hcapture : timer.tcsr &&& 0xf0 = 0)
    (hdisabled : timer.tier &&& 0x0e = 0) :
    (t16Count e timer).pending = 0 := by
  have hkeep := t16Count_capture hlast hgap
  rw [hcapture] at hkeep
  change timer.tier &&& (t16Count e timer).tcsr &&& 0xfe = 0
  have hsplit : ∀ tier tcsr low high : Byte,
      tier &&& tcsr &&& (low ||| high) =
        ((tier &&& low) &&& tcsr) ||| (tier &&& (tcsr &&& high)) := by
    intro tier tcsr low high
    grind
  have hmask : (0xfe : Byte) = 0x0e ||| 0xf0 := by decide
  rw [hmask, hsplit, hdisabled, hkeep]
  simp

/-- The first update that leaves an enabled flag set comes no earlier than
the event the deadline is set for. -/
theorem t16_event_reached {timer : Timer16} {e : ℕ}
    (hquiet : ¬SilentClear timer) (hlast : timer.myLastCycles ≤ e)
    (hgap : e < timer.myLastCycles + 2 ^ 31) (hclear : timer.pending = 0)
    (hpending : (t16Count e timer).pending ≠ 0) :
    timer.myLastCycles + timer.distance ≤ e := by
  set ticks := timer.prescaled.ticks (freq timer.tcr) e with hticks
  have hmul : ticks * 2 ^ freq timer.tcr ≤ e - timer.myLastCycles :=
    Nat.div_mul_le_self _ _
  have hevent : timer.nextEvent ≤ ticks := by
    by_contra hbefore
    have hkeep := t16_quiet_before_event hquiet (not_le.mp hbefore)
    refine hpending ?_
    rw [t16Count_eq_catchUp hlast hgap]
    have hstatus : (timer.catchUp e).tcsr &&& (timer.tier &&& 0xfe) =
        timer.tcsr &&& (timer.tier &&& 0xfe) := hkeep
    unfold Timer16.pending at hclear ⊢
    change timer.tier &&& (timer.catchUp e).tcsr &&& 0xfe = 0
    generalize (timer.catchUp e).tcsr = tcsr at hstatus ⊢
    grind
  have hdistance : timer.distance ≤ ticks * 2 ^ freq timer.tcr :=
    Nat.mul_le_mul_right _ hevent
  omega

theorem Timers.Scheduled.inTime16 {timers : Timers}
    (hscheduled : timers.Scheduled) (hquiet : ¬SilentClear timers.t16)
    {e : ℕ} (he : timers.clock.cycles ≤ e)
    (hirq : t16CheckIrq (t16UpdateTime { timers.clock with cycles := e }
      timers.t16).1 < 255) :
    timers.clock.nextTimerCycle ≤ e := by
  have hlast := hscheduled.last16.trans he
  have hnear := hscheduled.near16
  have hhigh := hscheduled.high
  simp only [MAX_AUTONOMOUS_CYCLES] at hhigh
  by_cases hgap : e < timers.t16.myLastCycles + 2 ^ 31
  · have hpending : (t16Count e timers.t16).pending ≠ 0 :=
      t16CheckIrq_lt hirq
    have henabled : ¬timers.t16.tier &&& 0x0e = 0 := fun hdisabled =>
      hpending (t16_disabled_quiet hlast hgap hscheduled.capture hdisabled)
    have hdue := hscheduled.due16.resolve_left henabled
    by_cases hclear : timers.t16.pending = 0
    · have hevent := t16_event_reached hquiet hlast hgap hclear hpending
      have hdeadline := hdue.event
      omega
    · exact (hdue.pending hclear).trans he
  · omega

theorem Timers.Scheduled.inTime8 {timers : Timers}
    (hscheduled : timers.Scheduled) {e : ℕ} (he : timers.clock.cycles ≤ e)
    (hirq : t8CheckIrq (t8UpdateTime { timers.clock with cycles := e }
      timers.t8).1 < 255) :
    timers.clock.nextTimerCycle ≤ e := by
  have hcheck : ∀ (timer : Timer8) (clock : Clock),
      (t8CheckNextCycle timer clock).1.pending = timer.pending := by
    intro timer clock
    unfold t8CheckNextCycle
    split_ifs <;> rfl
  have hpending : (t8Count e timers.t8).pending ≠ 0 := by
    have hset := t8CheckIrq_lt hirq
    rwa [t8UpdateTime, hcheck] at hset
  by_cases hnow : timers.t8.pending ≠ 0
  · exact (hscheduled.due8.pending hnow).trans he
  rw [not_not] at hnow
  have hrunning : timers.t8.shift ≠ 31 := by
    intro hstopped
    refine hpending ?_
    rw [← hnow, t8Count, if_pos hstopped]
    rfl
  have hgate : timers.t8.ch0.myNextCycle ≤ e := by
    by_contra hbefore
    refine hpending ?_
    rw [t8Count_eq_self hrunning (not_le.mp hbefore), hnow]
  have hdeadline := hscheduled.due8.event hrunning
  omega

/-- In every run whose steps keep the deadlines, no timer interrupt is
scheduled late, provided the present registers have no silent clear. -/
theorem timers_in_time (start timers : Timers)
    (hdeadline : start.clock.nextTimerCycle ≤
      start.clock.cycles + MAX_AUTONOMOUS_CYCLES)
    (hreach : Timers.Reach TimersOk start.reset timers)
    (hquiet : ¬SilentClear timers.t16) :
    timers.InTime := by
  have hscheduled := hreach.scheduled hdeadline
  intro e he hirq
  rcases hirq with h16 | h8
  · exact hscheduled.inTime16 hquiet he h16
  · exact hscheduled.inTime8 he h8

/-- The timers when the emulator starts. -/
def Timers.powerOn : Timers where
  t16 := ⟨0, 0, 0, 0, 0, 0, 0, 0, 0⟩
  t8 := ⟨⟨0, 0, 0, 0, 0, 0, 0, 0⟩, ⟨0, 0, 0, 0, 0, 0, 0, 0⟩, 0, []⟩
  clock := ⟨0, 0, 0⟩

/-- Enabling all interrupts of the 16-bit timer after a poll. -/
theorem timers_in_time_enabled :
    ((Timers.powerOn.reset.step ⟨100, .checkIrq⟩).step
      ⟨110, .write16 .TIER 0x0e⟩).InTime := by
  refine timers_in_time Timers.powerOn _ (by decide) ?_ (by decide)
  refine .step _ (.step _ .start (by decide) ?_) (by decide) ?_
  · exact ⟨not_false, by decide, by decide, nofun, by decide, by decide,
      by decide⟩
  · exact ⟨not_false, by decide, by decide, nofun, by decide, by decide,
      by decide⟩

/-- A guest enables the interrupt of match A and then moves `ocra` to 100
while the counter is at 50.  The match comes at cycle 202, but the deadline
stays at the overflow, cycle 131072. -/
theorem timers_compare_write_is_late :
    ∃ timers, Timers.Reach (fun _ _ => True) Timers.powerOn.reset timers ∧
      ¬timers.InTime := by
  refine ⟨(((Timers.powerOn.reset.step ⟨100, .checkIrq⟩).step
    ⟨100, .write16 .TIER 0x08⟩).step ⟨100, .write16 .OCRH 0⟩).step
      ⟨100, .write16 .OCRL 100⟩, ?_, ?_⟩
  · refine .step _ (.step _ (.step _ (.step _ .start ?_ trivial) ?_ trivial)
      ?_ trivial) ?_ trivial
    all_goals decide
  · intro hinTime
    have hlate := hinTime 202 (by decide) (Or.inl (by decide))
    revert hlate
    decide

end BrickEmu
