import BrickEmu.MachineEffects
import BrickEmu.TimerDeadlines

/-!
# Deadlines that are not past

Each peripheral computes the next cycle at which it needs attention from the
cycle of its last count.  The result does not lie in the past when the
difference of the two cycles fits the `int` of the code and when the counter
has not already left an enabled compare value behind.  The watchdog adds the
end of the reset it asks for.
-/

namespace BrickEmu

/-- The difference of the two cycles fits the `int` of the code. -/
def Elapsed (last cycles : ℕ) : Prop :=
  last ≤ cycles ∧ cycles < last + 2 ^ 31

instance (last cycles : ℕ) : Decidable (Elapsed last cycles) :=
  inferInstanceAs (Decidable (_ ∧ _))

section Serial

/-- The serial line looks again after a whole byte at the latest. -/
theorem serCheckNextCycle_ahead {serial : Serial} {clock : Clock}
    (hbyte : serial.serCycles < 2 ^ 31)
    (hahead : clock.cycles ≤ clock.nextTimerCycle) :
    clock.cycles ≤ (serCheckNextCycle serial clock).nextTimerCycle := by
  have hlowered : ∀ next : ℕ, next ≤ serial.serCycles →
      clock.cycles ≤
        (if int32 next < int32 ((clock.nextTimerCycle : ℤ) - clock.cycles) then
          { clock with
            nextTimerCycle := addToCycle clock.cycles (int32 next) }
        else clock).nextTimerCycle := by
    intro next hnext
    rw [int32_eq_self (x := (next : ℤ)) (by omega) (by omega)]
    split_ifs
    · simp only [addToCycle]
      rw [uint64_eq_toNat (by omega)]
      omega
    · exact hahead
  simp only [serCheckNextCycle]
  by_cases hpending : serial.pending ≠ 0
  · rw [if_pos hpending]
  · rw [if_neg hpending]
    apply hlowered
    split_ifs <;> omega

end Serial

section SixteenBit

open Timer16

/-- No enabled compare value stands right below the counter. -/
structure Timer16.EventAhead (timer : Timer16) : Prop where
  matchA : timer.tier &&& OCFA ≠ 0 → timer.ocra + 1 ≠ timer.frc
  matchB : timer.tier &&& OCFB ≠ 0 → timer.ocrb + 1 ≠ timer.frc

instance (timer : Timer16) : Decidable timer.EventAhead :=
  decidable_of_iff
    ((timer.tier &&& OCFA ≠ 0 → timer.ocra + 1 ≠ timer.frc) ∧
      (timer.tier &&& OCFB ≠ 0 → timer.ocrb + 1 ≠ timer.frc))
    ⟨fun h => ⟨h.1, h.2⟩, fun h => ⟨h.matchA, h.matchB⟩⟩

theorem Timer16.EventAhead.nextEvent_pos {timer : Timer16}
    (h : timer.EventAhead) : 0 < timer.nextEvent := by
  have hfrc := timer.frc.isLt
  have hdistance : ∀ ocr : Word, ocr + 1 ≠ timer.frc →
      0 < (ocr + 1 - timer.frc).toNat := by
    intro ocr hne
    bv_omega
  simp only [nextEvent]
  split_ifs with hA hB hB
  · exact hdistance _ (h.matchB hB.1)
  · exact hdistance _ (h.matchA hA.1)
  · exact hdistance _ (h.matchB hB.1)
  · omega

/-- The counter needs at least one more tick to the next event. -/
theorem t16CheckNextCycle_ahead {timer : Timer16} {clock : Clock}
    (hevent : timer.EventAhead) (hlast : timer.myLastCycles ≤ clock.cycles)
    (htick : clock.cycles < timer.myLastCycles + 2 ^ freq timer.tcr)
    (hahead : clock.cycles ≤ clock.nextTimerCycle) :
    clock.cycles ≤ (t16CheckNextCycle timer clock).nextTimerCycle := by
  have hpositive := hevent.nextEvent_pos
  have hlimit : timer.distance ≤ 2 ^ 21 := timer.distance_le
  have hdistance : 2 ^ freq timer.tcr ≤ timer.distance :=
    Nat.le_mul_of_pos_left _ hpositive
  have hnext : int32 ((timer.nextEvent * 2 ^ freq timer.tcr : ℕ) +
      timer.myLastCycles - clock.cycles) =
        (timer.distance : ℤ) + timer.myLastCycles - clock.cycles := by
    change int32 ((timer.distance : ℤ) + _ - _) = _
    exact int32_eq_self (by omega) (by omega)
  unfold t16CheckNextCycle
  simp only [hnext]
  split_ifs
  · exact le_rfl
  · simp only [addToCycle]
    rw [uint64_eq_toNat (by omega)]
    omega
  · exact hahead

theorem t16UpdateTime_ahead {timer : Timer16} {clock : Clock}
    (helapsed : Elapsed timer.myLastCycles clock.cycles)
    (hevent : (t16UpdateTime clock timer).1.EventAhead)
    (hahead : clock.cycles ≤ clock.nextTimerCycle) :
    clock.cycles ≤ (t16UpdateTime clock timer).2.nextTimerCycle := by
  have hcount := t16Count_eq_catchUp helapsed.1 helapsed.2
  have hlast := catchUp_last_le helapsed.1
  have htick := lt_catchUp_last helapsed.1
  rw [← hcount] at hlast htick
  exact t16CheckNextCycle_ahead hevent hlast htick hahead

end SixteenBit

section EightBit

open Timer8

/-- The gate of the update is the deadline of the next event. -/
def Timer8.Gated (timer : Timer8) : Prop :=
  timer.pending = 0 → timer.shift ≠ 31 →
    timer.ch0.myNextCycle =
      uint64 (timer.ch0.lastCycles + timer.ch0.nextEvent timer.shift)

theorem gated_t8CheckNextCycle (timer : Timer8) (clock : Clock) :
    (t8CheckNextCycle timer clock).1.Gated := by
  simp only [t8CheckNextCycle]
  by_cases hpending : timer.pending ≠ 0
  · rw [if_pos hpending]
    exact fun hclear => absurd hclear hpending
  rw [if_neg hpending]
  by_cases hstopped : timer.shift = 31
  · rw [if_pos hstopped]
    exact fun _ hrunning => absurd hstopped hrunning
  · rw [if_neg hstopped]
    exact fun _ _ => rfl

theorem gated_t8Reset (clock : Clock) (timer : Timer8) :
    (t8Reset clock timer).Gated := by
  have hstopped : (t8Reset clock timer).shift = 31 := by
    simp [shift, t8Reset, freq]
  exact fun _ hrunning => absurd hstopped hrunning

theorem Timer8.Gated.t8Read {timer : Timer8} (h : timer.Gated)
    (clock : Clock) (register : T8Register) :
    (t8Read clock timer register).2.1.Gated := by
  cases register with
  | TCSR0 | TCSR1 => exact gated_t8CheckNextCycle _ _
  | _ => exact h

theorem Timer8.Gated.t8Write {timer : Timer8} (h : timer.Gated) (val : Byte)
    (clock : Clock) (register : T8Register) :
    (t8Write val clock timer register).1.Gated := by
  cases register with
  | STCR =>
      simp only [BrickEmu.t8Write, setSTCR]
      split_ifs
      · exact h
      · exact gated_t8CheckNextCycle _ _
  | _ => exact gated_t8CheckNextCycle _ _

/-- A set compare match flag B does not stand for a value that the counter
has left behind. -/
def T8Channel.EventAhead (channel : T8Channel) : Prop :=
  channel.tcsr &&& CMFB ≠ 0 → channel.tcnt ≤ channel.tcorb

instance (channel : T8Channel) : Decidable channel.EventAhead :=
  inferInstanceAs (Decidable (_ → _))

theorem T8Channel.EventAhead.tick_le {channel : T8Channel}
    (h : channel.EventAhead) {shift : ℕ} (hshift : shift ≤ 10) :
    (2 : ℤ) ^ shift ≤ channel.nextEvent shift := by
  have hcnt := channel.tcnt.isLt
  have hpos : (0 : ℤ) < 2 ^ shift := by positivity
  have hpow : (2 : ℤ) ^ shift ≤ 0x100 * 2 ^ 10 :=
    (pow_le_pow_right₀ (by norm_num) hshift).trans (by norm_num)
  have hticks : ∀ n : ℤ, 1 ≤ n → (2 : ℤ) ^ shift ≤ n * 2 ^ shift :=
    fun n hn => le_mul_of_one_le_left hpos.le hn
  have hover := hticks (0x100 - channel.tcnt.toNat) (by omega)
  have hmatchA : channel.tcnt < channel.tcora → (2 : ℤ) ^ shift ≤
      (channel.tcora.toNat + 1 - channel.tcnt.toNat) * 2 ^ shift := by
    intro hlt
    have hlt : channel.tcnt.toNat < channel.tcora.toNat := hlt
    exact hticks _ (by omega)
  have hmatchB : channel.tcsr &&& CMFB ≠ 0 → (2 : ℤ) ^ shift ≤
      (channel.tcorb.toNat + 1 - channel.tcnt.toNat) * 2 ^ shift := by
    intro hflag
    have hle : channel.tcnt.toNat ≤ channel.tcorb.toNat := h hflag
    exact hticks _ (by omega)
  simp only [T8Channel.nextEvent]
  split_ifs with h1 h2 h3 h4 h5 h6 h7 <;> grind

theorem T8Core.lt_catchUp_last {core : T8Core} {now : ℕ}
    (hlast : core.last ≤ now) :
    now < (core.catchUp now).last + 2 ^ core.shift := by
  by_cases hstopped : core.shift = 31
  · simp only [catchUp, if_pos hstopped]
    exact Nat.lt_add_of_pos_right (Nat.two_pow_pos _)
  · simp only [catchUp, if_neg hstopped]
    exact Prescaled.lt_advance_last core.counter.tick hlast

theorem shift_t8Count {timer : Timer8} {cycles : ℕ}
    (helapsed : timer.shift ≠ 31 → Elapsed timer.ch0.lastCycles cycles) :
    (t8Count cycles timer).shift = timer.shift := by
  by_cases hstopped : timer.shift = 31
  · simp only [t8Count, if_pos hstopped]
    rfl
  by_cases hgate : cycles < timer.ch0.myNextCycle
  · rw [t8Count_eq_self hstopped hgate]
  · obtain ⟨hlast, hsoon⟩ := helapsed hstopped
    have hcore := t8Count_core hlast (fun _ => hsoon)
      (fun _ => Nat.not_lt.mp hgate)
    exact (congrArg T8Core.shift hcore).trans
      (T8Core.shift_catchUp cycles timer.core)

theorem shift_t8UpdateTime {timer : Timer8} {clock : Clock}
    (helapsed : timer.shift ≠ 31 →
      Elapsed timer.ch0.lastCycles clock.cycles) :
    (t8UpdateTime clock timer).1.shift = timer.shift := by
  have hcore := congrArg T8Core.shift
    (t8CheckNextCycle_core (t8Count clock.cycles timer) clock)
  exact hcore.trans (shift_t8Count helapsed)

/-- The event of a counter that has been brought up to date, or that need not
be counted yet. -/
theorem t8Count_ahead {timer : Timer8} {cycles : ℕ} (hgated : timer.Gated)
    (helapsed : timer.shift ≠ 31 → Elapsed timer.ch0.lastCycles cycles)
    (hrunning : timer.shift ≠ 31)
    (hclear : (t8Count cycles timer).pending = 0)
    (hevent : (t8Count cycles timer).ch0.EventAhead) :
    cycles ≤ uint64 ((t8Count cycles timer).ch0.lastCycles +
      (t8Count cycles timer).ch0.nextEvent timer.shift) := by
  by_cases hgate : cycles < timer.ch0.myNextCycle
  · rw [t8Count_eq_self hrunning hgate] at hclear ⊢
    rw [← hgated hclear hrunning]
    exact hgate.le
  · obtain ⟨hlast, hsoon⟩ := helapsed hrunning
    have hcounted : (t8Count cycles timer).ch0.lastCycles =
        (timer.core.catchUp cycles).last :=
      congrArg T8Core.last (t8Count_core hlast (fun _ => hsoon)
        fun _ => Nat.not_lt.mp hgate)
    have htick : cycles <
        (timer.core.catchUp cycles).last + 2 ^ timer.shift :=
      T8Core.lt_catchUp_last hlast
    have hcore : timer.core.shift ≠ 31 := hrunning
    have hshift : timer.shift ≤ 10 := (T8Core.shift_le hcore).2
    have hnext := hevent.tick_le hshift
    have hcast : ((2 ^ timer.shift : ℕ) : ℤ) = (2 : ℤ) ^ timer.shift := by
      push_cast
      rfl
    rw [hcounted, uint64_eq_toNat (by omega)]
    omega

theorem t8UpdateTime_ahead {timer : Timer8} {clock : Clock}
    (hgated : timer.Gated)
    (helapsed : timer.shift ≠ 31 →
      Elapsed timer.ch0.lastCycles clock.cycles)
    (hevent : timer.shift ≠ 31 →
      (t8UpdateTime clock timer).1.ch0.EventAhead)
    (hahead : clock.cycles ≤ clock.nextTimerCycle) :
    clock.cycles ≤ (t8UpdateTime clock timer).2.nextTimerCycle := by
  have hshift := shift_t8Count helapsed
  have hcore := congrArg T8Core.tcsr
    (t8CheckNextCycle_core (t8Count clock.cycles timer) clock)
  simp only [t8UpdateTime, t8CheckNextCycle, hshift] at hevent ⊢
  by_cases hpending : (t8Count clock.cycles timer).pending ≠ 0
  · rw [if_pos hpending]
  rw [if_neg hpending] at hevent ⊢
  by_cases hstopped : timer.shift = 31
  · rw [if_pos hstopped]
    exact hahead
  rw [if_neg hstopped] at hevent ⊢
  have hnext := t8Count_ahead hgated helapsed hstopped (not_not.mp hpending)
    (hevent hstopped)
  simp only
  split_ifs
  · exact hnext
  · exact hahead

end EightBit

section Converter

open AdSensors

/-- A conversion that will raise an interrupt has begun in time. -/
def AdSensors.Recent (cycles : ℕ) (ad : AdSensors) : Prop :=
  ad.adcsr &&& (ADIE ||| ADST) = ADIE ||| ADST →
    Elapsed ad.adStartCycle cycles

instance (cycles : ℕ) (ad : AdSensors) : Decidable (ad.Recent cycles) :=
  inferInstanceAs (Decidable (_ → _))

theorem running_of_enabled : ∀ adcsr : Byte,
    adcsr &&& (ADIE ||| ADST) = ADIE ||| ADST → adcsr &&& ADST ≠ 0 := by
  decide +kernel

theorem stopped_not_running : ∀ adcsr : Byte,
    ((adcsr &&& ~~~ADST) ||| ADF) &&& ADST = 0 := by
  decide +kernel

theorem adLoop_of_stopped {ad : AdSensors} (hstopped : ad.adcsr &&& ADST = 0)
    (cycles convTime fuel : ℕ) : adLoop cycles convTime fuel ad = ad := by
  cases fuel with
  | zero => rfl
  | succ fuel => rw [adLoop, if_pos hstopped]

/-- One conversion ends the scan or goes on to the next channel. -/
theorem adConvert_cases (convTime : ℕ) (ad : AdSensors) :
    (adConvert convTime ad).adcsr &&& ADST = 0 ∨
      ((adConvert convTime ad).adcsr = ad.adcsr ∧
        (adConvert convTime ad).adStartCycle = ad.adStartCycle + convTime ∧
        ad.adchannel < ad.adcsr &&& CH ∧
        (adConvert convTime ad).adchannel = ad.adchannel + 1) := by
  have hstopped := stopped_not_running ad.adcsr
  simp only [adConvert]
  split_ifs with hscan hlast
  · exact Or.inr ⟨rfl, rfl, hlast, rfl⟩
  · exact Or.inl hstopped
  · exact Or.inl hstopped

theorem adLoop_adcsr (cycles convTime fuel : ℕ) (ad : AdSensors) :
    (adLoop cycles convTime fuel ad).adcsr = ad.adcsr ∨
      (adLoop cycles convTime fuel ad).adcsr &&& ADST = 0 := by
  induction fuel generalizing ad with
  | zero => exact Or.inl rfl
  | succ fuel ih =>
      rw [adLoop]
      split_ifs
      · exact Or.inl rfl
      · exact Or.inl rfl
      · rcases adConvert_cases convTime ad with hstopped | ⟨hadcsr, -⟩
        · rw [adLoop_of_stopped hstopped]
          exact Or.inr hstopped
        · rw [← hadcsr]
          exact ih _

/-- A conversion that still runs when the loop ends is not over yet.  The
channels that are left bound the passes. -/
theorem adLoop_running {cycles convTime : ℕ} (fuel : ℕ) :
    ∀ ad : AdSensors, (ad.adcsr &&& CH).toNat - ad.adchannel.toNat < fuel →
      Elapsed ad.adStartCycle cycles →
      (adLoop cycles convTime fuel ad).adcsr &&& ADST ≠ 0 →
      cycles < (adLoop cycles convTime fuel ad).adStartCycle + convTime := by
  induction fuel with
  | zero => exact fun _ hfuel => absurd hfuel (Nat.not_lt_zero _)
  | succ fuel ih =>
      intro ad hfuel helapsed
      obtain ⟨hstart, hsoon⟩ := helapsed
      have hint : int32 ((cycles : ℤ) - ad.adStartCycle) =
          (cycles : ℤ) - ad.adStartCycle :=
        int32_eq_self (by omega) (by omega)
      rw [adLoop, hint]
      split_ifs with hstopped hgoing
      · exact fun hrunning => absurd hstopped hrunning
      · intro _
        omega
      · rcases adConvert_cases convTime ad with
          hstopped | ⟨hadcsr, hnext, hleft, hchannel⟩
        · rw [adLoop_of_stopped hstopped]
          exact fun hrunning => absurd hstopped hrunning
        · apply ih
          · have hlt : ad.adchannel.toNat < (ad.adcsr &&& CH).toNat := hleft
            have hbound := (ad.adcsr &&& CH).isLt
            have hone : (1 : Byte).toNat = 1 := rfl
            rw [hadcsr, hchannel, BitVec.toNat_add, hone]
            omega
          · rw [hnext]
            exact ⟨by omega, by omega⟩

theorem adUpdateTime_ahead {ad : AdSensors} {clock : Clock}
    (hrecent : ad.Recent clock.cycles)
    (hahead : clock.cycles ≤ clock.nextTimerCycle) :
    clock.cycles ≤ (adUpdateTime clock ad).2.nextTimerCycle := by
  have hchannels : ∀ adcsr : Byte, (adcsr &&& CH).toNat < 8 := by
    decide +kernel
  simp only [adUpdateTime, adCheckNextCycle]
  generalize hlooped : adLoop clock.cycles ad.convTime 8 ad = looped
  split_ifs with hflag henabled hearlier
  · exact le_rfl
  · have hrunning := running_of_enabled _ henabled
    have hadcsr : looped.adcsr = ad.adcsr := by
      rcases adLoop_adcsr clock.cycles ad.convTime 8 ad with hsame | hstopped
      · rw [← hlooped, hsame]
      · rw [hlooped] at hstopped
        exact absurd hstopped hrunning
    have hbefore := hchannels ad.adcsr
    have hlater := @adLoop_running clock.cycles ad.convTime 8 ad (by omega)
      (hrecent (hadcsr ▸ henabled))
    rw [hlooped] at hlater
    have hconv : looped.convTime = ad.convTime := by
      rw [convTime, convTime, hadcsr]
    have hend := hlater hrunning
    rw [hconv, addToCycle, ← Nat.cast_add, uint64_natCast]
    exact hend.le
  · exact hahead
  · exact hahead

end Converter

section Motors

/-- The report of the motors is less than one interval late. -/
def Motor.Recent (cycles : ℕ) (motor : Motor) : Prop :=
  cycles ≤ motor.nextOutputCycles + UPDATE_INTERVAL

instance (cycles : ℕ) (motor : Motor) : Decidable (motor.Recent cycles) :=
  inferInstanceAs (Decidable (_ ≤ _))

theorem motorUpdateTime_ahead {motor : Motor} {clock : Clock}
    (hrecent : motor.Recent clock.cycles)
    (hahead : clock.cycles ≤ clock.nextTimerCycle) :
    clock.cycles ≤ (motorUpdateTime clock motor).2.1.nextTimerCycle := by
  have hoften : clock.cycles ≤ motor.nextOutputCycles + UPDATE_INTERVAL :=
    hrecent
  simp only [motorUpdateTime, motorUpdate]
  refine le_min ?_ hahead
  by_cases hdue : motor.nextOutputCycles ≤ clock.cycles
  · rw [if_pos hdue, addToCycle, ← Nat.cast_add, uint64_natCast]
    exact hoften
  · rw [if_neg hdue]
    exact (Nat.lt_of_not_le hdue).le

end Motors

section Watchdogs

open Watchdog

namespace Watchdog

/-- While the watchdog counts, the time from its last count, or up to its
restart, fits the `int` of the code. -/
def Recent (cycles : ℕ) (wdog : Watchdog) : Prop :=
  wdog.tcsr &&& TME ≠ 0 →
    cycles < wdog.lastCycles + 2 ^ 31 ∧ wdog.lastCycles ≤ cycles + 2 ^ 31

/-- The reset that the next update may find requested ends in the future.  In
watchdog mode it ends 518 cycles after the overflow, in interval mode it ends
with the last whole count, and a request that is already there ends with the
count it has left. -/
def InTime (cycles : ℕ) (wdog : Watchdog) : Prop :=
  wdog.tcsr &&& RST ≠ 0 →
    if wdog.tcsr &&& TME ≠ 0 ∧ wdog.nextCycle ≤ cycles then
      if wdog.tcsr &&& WTIT ≠ 0 then cycles ≤ wdog.nextCycle + 518
      else 2 ^ freq wdog.tcsr ∣ cycles - wdog.lastCycles
    else wdog.tcsr &&& OVF ≠ 0 → cycles ≤ wdog.lastCycles

instance (cycles : ℕ) (wdog : Watchdog) : Decidable (wdog.Recent cycles) :=
  inferInstanceAs (Decidable (_ → _))

instance (cycles : ℕ) (wdog : Watchdog) : Decidable (wdog.InTime cycles) :=
  inferInstanceAs (Decidable (_ → _))

/-- The counts that are due at a cycle. -/
def due (cycles : ℕ) (wdog : Watchdog) : ℕ :=
  (cycles - wdog.lastCycles) / 2 ^ freq wdog.tcsr

theorem freq_le (tcsr : Byte) : freq tcsr ≤ 12 := by
  revert tcsr
  decide +kernel

theorem due_mul_le (cycles : ℕ) (wdog : Watchdog) :
    wdog.due cycles * 2 ^ freq wdog.tcsr ≤ cycles - wdog.lastCycles :=
  Nat.div_mul_le_self _ _

/-- The counter overflows with the counts that are due when its next overflow
is not in the future. -/
theorem overflow_iff {cycles : ℕ} {wdog : Watchdog}
    (hlast : wdog.lastCycles ≤ cycles) :
    0x100 ≤ wdog.tcnt.toNat + wdog.due cycles ↔ wdog.nextCycle ≤ cycles := by
  have hcnt := wdog.tcnt.isLt
  have hdue : 0x100 - wdog.tcnt.toNat ≤ wdog.due cycles ↔
      (0x100 - wdog.tcnt.toNat) * 2 ^ freq wdog.tcsr ≤
        cycles - wdog.lastCycles :=
    Nat.le_div_iff_mul_le (Nat.two_pow_pos _)
  unfold nextCycle
  omega

variable {clock : Clock} {wdog : Watchdog}

theorem increment_eq_due (hlast : wdog.lastCycles ≤ clock.cycles)
    (hsoon : clock.cycles < wdog.lastCycles + 2 ^ 31) :
    int32 (uint64 ((clock.cycles : ℤ) - wdog.lastCycles) /
      2 ^ freq wdog.tcsr : ℕ) = wdog.due clock.cycles := by
  have hle := Nat.div_le_self (clock.cycles - wdog.lastCycles)
    (2 ^ freq wdog.tcsr)
  have hdue : wdog.due clock.cycles =
      (clock.cycles - wdog.lastCycles) / 2 ^ freq wdog.tcsr := rfl
  rw [uint64_sub_of_le hlast, ← hdue]
  exact int32_eq_self (by omega) (by omega)

/-- Before its restart the watchdog sees a negative increment. -/
theorem increment_neg (hearly : clock.cycles < wdog.lastCycles)
    (hlimit : wdog.lastCycles ≤ clock.cycles + 2 ^ 31) :
    int32 (uint64 ((clock.cycles : ℤ) - wdog.lastCycles) /
      2 ^ freq wdog.tcsr : ℕ) < 0 := by
  have hnegative : ¬ 0 ≤ (clock.cycles : ℤ) - wdog.lastCycles := by omega
  obtain ⟨wait, hwait⟩ : ∃ wait : ℕ, wait =
      uint64 ((clock.cycles : ℤ) - wdog.lastCycles) := ⟨_, rfl⟩
  have hvalue : (wait : ℤ) = clock.cycles - wdog.lastCycles + 2 ^ 64 := by
    rw [hwait, uint64, if_neg hnegative]
    omega
  rw [← hwait]
  have hfreq := freq_le wdog.tcsr
  have hpositive : 1 ≤ freq wdog.tcsr := by
    have hall : ∀ tcsr : Byte, 1 ≤ freq tcsr := by decide +kernel
    exact hall _
  generalize freq wdog.tcsr = shift at hfreq hpositive
  unfold int32
  interval_cases shift <;> omega

theorem updateTime_early (hearly : clock.cycles < wdog.lastCycles)
    (hlimit : wdog.lastCycles ≤ clock.cycles + 2 ^ 31) :
    (wdogUpdateTime clock wdog).1 = wdog := by
  have hnegative := increment_neg hearly hlimit
  simp only [wdogUpdateTime, if_pos hnegative]
  split_ifs <;> rfl

theorem updateTime_count (hcounts : wdog.tcsr &&& TME ≠ 0)
    (hlast : wdog.lastCycles ≤ clock.cycles)
    (hsoon : clock.cycles < wdog.lastCycles + 2 ^ 31) :
    (wdogUpdateTime clock wdog).1 =
      wdogCount (wdog.due clock.cycles) wdog := by
  have hincr := increment_eq_due hlast hsoon
  have hpositive : ¬ ((wdog.due clock.cycles : ℕ) : ℤ) < 0 := by omega
  simp only [wdogUpdateTime, if_pos hcounts, hincr, if_neg hpositive]

/-- The counter runs on. -/
theorem count_running {n : ℕ} (hbefore : wdog.tcnt.toNat + n < 0x100)
    (hsmall : n * 2 ^ freq wdog.tcsr < 2 ^ 31) :
    (wdogCount n wdog).tcsr = wdog.tcsr ∧
      (wdogCount n wdog).nextCycle = wdog.nextCycle ∧
      wdog.lastCycles ≤ (wdogCount n wdog).lastCycles := by
  have hpast : ¬ (0 : ℤ) ≤ wdog.tcnt.toNat + (n : ℤ) - 0x100 := by omega
  have hlast : uint64 ((wdog.lastCycles : ℤ) +
      int32 ((n : ℤ) * 2 ^ freq wdog.tcsr)) =
        wdog.lastCycles + n * 2 ^ freq wdog.tcsr := by
    have hcast : (n : ℤ) * 2 ^ freq wdog.tcsr =
        ((n * 2 ^ freq wdog.tcsr : ℕ) : ℤ) := by push_cast; rfl
    rw [hcast, int32_eq_self (by omega) (by omega), ← Nat.cast_add,
      uint64_natCast]
  have hcount : (wdog.tcnt + BitVec.ofInt 8 n).toNat =
      wdog.tcnt.toNat + n := by
    rw [BitVec.toNat_add, BitVec.ofInt_natCast, BitVec.toNat_ofNat]
    omega
  simp only [wdogCount, if_neg hpast, nextCycle, hlast, hcount]
  refine ⟨trivial, ?_, Nat.le_add_right _ _⟩
  have hsplit : 0x100 - wdog.tcnt.toNat =
      n + (0x100 - (wdog.tcnt.toNat + n)) := by omega
  rw [hsplit, Nat.add_mul, Nat.add_assoc]

/-- The counter overflows. -/
theorem count_overflow {n : ℕ} (hover : 0x100 ≤ wdog.tcnt.toNat + n)
    (hsmall : n * 2 ^ freq wdog.tcsr < 2 ^ 31) :
    (wdogCount n wdog).tcsr = wdog.tcsr ||| OVF ∧
      (wdogCount n wdog).lastCycles =
        if wdog.tcsr &&& WTIT ≠ 0 then wdog.nextCycle + 518
        else wdog.lastCycles + n * 2 ^ freq wdog.tcsr := by
  have hcnt := wdog.tcnt.isLt
  have hmode : ∀ tcsr : Byte, (tcsr ||| OVF) &&& WTIT = tcsr &&& WTIT := by
    decide +kernel
  have hpast : (0 : ℤ) ≤ wdog.tcnt.toNat + (n : ℤ) - 0x100 := by omega
  obtain ⟨past, hvalue⟩ := Int.eq_ofNat_of_zero_le hpast
  have hsplit : n = (0x100 - wdog.tcnt.toNat) + past := by omega
  have hparts : n * 2 ^ freq wdog.tcsr =
      (0x100 - wdog.tcnt.toNat) * 2 ^ freq wdog.tcsr +
        past * 2 ^ freq wdog.tcsr := by
    rw [← Nat.add_mul, ← hsplit]
  have hcast : ∀ k : ℕ, (k : ℤ) * 2 ^ freq wdog.tcsr =
      ((k * 2 ^ freq wdog.tcsr : ℕ) : ℤ) := by
    intro k
    push_cast
    rfl
  have hall : int32 ((n : ℤ) * 2 ^ freq wdog.tcsr) =
      ((n * 2 ^ freq wdog.tcsr : ℕ) : ℤ) := by
    rw [hcast]
    exact int32_eq_self (by omega) (by omega)
  have hrest : int32 ((past : ℤ) * 2 ^ freq wdog.tcsr) =
      ((past * 2 ^ freq wdog.tcsr : ℕ) : ℤ) := by
    rw [hcast]
    exact int32_eq_self (by omega) (by omega)
  have hnonneg : (0 : ℤ) ≤ past := Int.natCast_nonneg past
  simp only [wdogCount, hmode, hvalue, hall, hrest, if_pos hnonneg]
  split_ifs
  · refine ⟨rfl, ?_⟩
    simp only [nextCycle]
    rw [uint64_eq_toNat (by omega)]
    omega
  · refine ⟨rfl, ?_⟩
    simp only
    rw [← Nat.cast_add, uint64_natCast]

/-- An update before the next overflow. -/
theorem updateTime_running (hrecent : wdog.Recent clock.cycles)
    (hcounts : wdog.tcsr &&& TME ≠ 0)
    (hbefore : clock.cycles < wdog.nextCycle) :
    (wdogUpdateTime clock wdog).1.tcsr = wdog.tcsr ∧
      (wdogUpdateTime clock wdog).1.nextCycle = wdog.nextCycle ∧
      wdog.lastCycles ≤ (wdogUpdateTime clock wdog).1.lastCycles := by
  obtain ⟨hsoon, hlimit⟩ := hrecent hcounts
  by_cases hlast : wdog.lastCycles ≤ clock.cycles
  · have hcount : wdog.tcnt.toNat + wdog.due clock.cycles < 0x100 := by
      have hover := overflow_iff hlast
      omega
    have hsmall := wdog.due_mul_le clock.cycles
    rw [updateTime_count hcounts hlast hsoon]
    exact count_running hcount (by omega)
  · rw [updateTime_early (Nat.lt_of_not_le hlast) hlimit]
    exact ⟨rfl, rfl, le_rfl⟩

/-- An update at the next overflow or behind it. -/
theorem updateTime_overflow (hrecent : wdog.Recent clock.cycles)
    (hcounts : wdog.tcsr &&& TME ≠ 0)
    (hover : wdog.nextCycle ≤ clock.cycles) :
    (wdogUpdateTime clock wdog).1.tcsr = wdog.tcsr ||| OVF ∧
      (wdogUpdateTime clock wdog).1.lastCycles =
        if wdog.tcsr &&& WTIT ≠ 0 then wdog.nextCycle + 518
        else wdog.lastCycles +
          wdog.due clock.cycles * 2 ^ freq wdog.tcsr := by
  obtain ⟨hsoon, -⟩ := hrecent hcounts
  have hlast : wdog.lastCycles ≤ clock.cycles :=
    (Nat.le_add_right _ _).trans hover
  have hsmall := wdog.due_mul_le clock.cycles
  rw [updateTime_count hcounts hlast hsoon]
  exact count_overflow ((overflow_iff hlast).mpr hover) (by omega)

/-- Without an overflow the next one is not past. -/
theorem nextCycle_ahead (hrecent : wdog.Recent clock.cycles)
    (hcounts : wdog.tcsr &&& TME ≠ 0)
    (hclear : (wdogUpdateTime clock wdog).1.tcsr &&& OVF = 0) :
    clock.cycles ≤ (wdogUpdateTime clock wdog).1.nextCycle := by
  by_cases hbefore : clock.cycles < wdog.nextCycle
  · rw [(updateTime_running hrecent hcounts hbefore).2.1]
    exact hbefore.le
  · have hset : ∀ tcsr : Byte, (tcsr ||| OVF) &&& OVF ≠ 0 := by
      decide +kernel
    rw [(updateTime_overflow hrecent hcounts (Nat.le_of_not_lt hbefore)).1]
      at hclear
    exact absurd hclear (hset _)

theorem updateTime_ahead (hrecent : wdog.Recent clock.cycles)
    (hclear : (wdogUpdateTime clock wdog).1.tcsr &&& OVF = 0) :
    (clock.cycles ≤ clock.nextTimerCycle →
        clock.cycles ≤ (wdogUpdateTime clock wdog).2.nextTimerCycle) ∧
      (clock.cycles ≤ clock.nextNmiCycle →
        clock.cycles ≤ (wdogUpdateTime clock wdog).2.nextNmiCycle) := by
  by_cases hcounts : wdog.tcsr &&& TME ≠ 0
  · have hnext := nextCycle_ahead hrecent hcounts hclear
    have hclock : (wdogUpdateTime clock wdog).2 =
        wdogCheckNextCycle (wdogUpdateTime clock wdog).1 clock := by
      simp only [wdogUpdateTime, if_pos hcounts]
    rw [hclock]
    generalize (wdogUpdateTime clock wdog).1 = wdog' at hnext ⊢
    unfold wdogCheckNextCycle
    split_ifs
    · exact ⟨le_min hnext, le_min hnext⟩
    · exact ⟨id, id⟩
  · simp only [wdogUpdateTime, if_neg hcounts]
    exact ⟨id, id⟩

/-- The reset that an update finds requested is over in the future. -/
theorem InTime.updateTime (h : wdog.InTime clock.cycles)
    (hrecent : wdog.Recent clock.cycles)
    (hover : (wdogUpdateTime clock wdog).1.tcsr &&& OVF ≠ 0)
    (hreset : (wdogUpdateTime clock wdog).1.tcsr &&& RST ≠ 0) :
    clock.cycles ≤ (wdogUpdateTime clock wdog).1.lastCycles := by
  have hkept : ∀ tcsr : Byte, (tcsr ||| OVF) &&& RST = tcsr &&& RST := by
    decide +kernel
  unfold InTime at h
  by_cases hcounts : wdog.tcsr &&& TME ≠ 0
  · by_cases hlate : wdog.nextCycle ≤ clock.cycles
    · obtain ⟨htcsr, hlast⟩ := updateTime_overflow hrecent hcounts hlate
      have hwhole : wdog.lastCycles ≤ clock.cycles :=
        (Nat.le_add_right _ _).trans hlate
      rw [htcsr, hkept] at hreset
      have hend := h hreset
      rw [if_pos ⟨hcounts, hlate⟩] at hend
      rw [hlast]
      split_ifs at hend ⊢
      · exact hend
      · rw [due, Nat.div_mul_cancel hend]
        omega
    · obtain ⟨htcsr, -, hlast⟩ :=
        updateTime_running hrecent hcounts (Nat.lt_of_not_le hlate)
      rw [htcsr] at hover hreset
      have hend := h hreset
      rw [if_neg fun hboth => hlate hboth.2] at hend
      exact (hend hover).trans hlast
  · have hsame : (wdogUpdateTime clock wdog).1 = wdog := by
      simp only [wdogUpdateTime, if_neg hcounts]
    rw [hsame] at hover hreset ⊢
    have hend := h hreset
    rw [if_neg fun hboth => hcounts hboth.1] at hend
    exact hend hover

end Watchdog

end Watchdogs

end BrickEmu
