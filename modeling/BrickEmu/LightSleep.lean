import BrickEmu.DeadlinesAhead
import BrickEmu.Pacing
import BrickEmu.WatchdogDeadline

/-!
# The light sleep

A light sleep jumps to the next deadline, checks for interrupts there and
goes on sleeping until one is taken.  The check computes the deadlines again.
None of them is past when every counter was counted in time and its next
event lies ahead.
-/

namespace BrickEmu

section Serial

theorem serUpdateCycles_lt (clock : Clock) (serial : Serial) :
    (serUpdateCycles clock serial).serCycles < 2 ^ 31 := by
  have hbrr := serial.brr.isLt
  have hsmr : ∀ smr : Byte, (smr &&& 3).toNat ≤ 3 := by decide +kernel
  have hexponent := hsmr serial.smr
  have hpow : 2 ^ (2 * (serial.smr &&& 3).toNat + 5) ≤ 2 ^ 11 :=
    Nat.pow_le_pow_right (by omega) (by omega)
  have hbits : (if serial.smr &&& Serial.CHR ≠ 0 then 7 else 8) +
      (if serial.smr &&& Serial.PE ≠ 0 then 1 else 0) +
      (if serial.smr &&& Serial.STOP ≠ 0 then 2 else 1) + 1 ≤ 12 := by
    split_ifs <;> omega
  have hrate : (serial.brr.toNat + 1) *
      2 ^ (2 * (serial.smr &&& 3).toNat + 5) ≤ 2 ^ 8 * 2 ^ 11 :=
    Nat.mul_le_mul (by omega) hpow
  have hproduct := Nat.mul_le_mul hrate hbits
  exact lt_of_le_of_lt hproduct (by norm_num)

theorem serUpdateTime_serCycles (clock : Clock) (serial : Serial) :
    (serUpdateTime clock serial).1.serCycles = serial.serCycles := by
  have htransmit : (serTransmit clock serial).serCycles =
      serial.serCycles := by
    simp only [serTransmit]
    split_ifs <;> rfl
  have hreceive : ∀ serial : Serial, (serReceive clock serial).serCycles =
      serial.serCycles := by
    intro serial
    simp only [serReceive, Serial.read]
    split_ifs
    · split
      · next hread =>
          obtain ⟨-, rfl⟩ := Prod.mk.inj hread
          split_ifs <;> rfl
      · next hread =>
          obtain ⟨-, rfl⟩ := Prod.mk.inj hread
          rfl
    · rfl
  exact (hreceive _).trans htransmit

end Serial

/-- The debugger clears the interrupt mask. -/
def Command.unmasks : Command → Bool
  | .setCcr val => val &&& 0x80 = 0
  | _ => false

namespace Machine

variable {m m' : Machine}

section Scheduled

/-- The deadlines of the serial line and of the 8-bit timer have been
computed from their registers. -/
structure Scheduled (m : Machine) : Prop where
  serial : m.serial.serCycles < 2 ^ 31
  t8 : m.t8.Gated

theorem Scheduled.congr (h : m.Scheduled) (hserial : m'.serial = m.serial)
    (ht8 : m'.t8 = m.t8) : m'.Scheduled :=
  ⟨hserial ▸ h.serial, ht8 ▸ h.t8⟩

theorem Scheduled.portGet (h : m.Scheduled) {port : Port} {val : Byte}
    (hget : m.portGet port = some (val, m')) : m'.Scheduled := by
  cases port with
  | t8 register =>
      obtain ⟨-, rfl⟩ := Prod.mk.inj (Option.some.inj hget)
      exact ⟨h.serial, h.t8.t8Read m.clock register⟩
  | serial register =>
      cases register <;>
        obtain ⟨-, rfl⟩ := Prod.mk.inj (Option.some.inj hget) <;>
        exact ⟨h.serial, h.t8⟩
  | port6 => cases hget
  | _ =>
      obtain ⟨-, rfl⟩ := Prod.mk.inj (Option.some.inj hget)
      exact ⟨h.serial, h.t8⟩

theorem setSSR_serCycles (val : Byte) (clock : Clock) (serial : Serial) :
    (setSSR val clock serial).1.serCycles = serial.serCycles := by
  simp only [setSSR, startTransmission]
  split_ifs <;> rfl

theorem Scheduled.portSet (h : m.Scheduled) {port : Port}
    (hport : port ≠ .port6) (htimer : ∀ register, port ≠ .t16 register)
    (val : Byte) : (m.portSet port val).Scheduled := by
  cases port with
  | t16 register => exact absurd rfl (htimer register)
  | port6 => exact absurd rfl hport
  | t8 register => exact ⟨h.serial, h.t8.t8Write val m.clock register⟩
  | serial register =>
      cases register with
      | SMR | BRR => exact ⟨serUpdateCycles_lt _ _, h.t8⟩
      | SSR =>
          have hbyte := setSSR_serCycles val m.clock m.serial
          exact ⟨hbyte ▸ h.serial, h.t8⟩
      | _ => exact ⟨h.serial, h.t8⟩
  | _ => exact ⟨h.serial, h.t8⟩

theorem scheduled_rule : DeviceRule Scheduled where
  same _ _ h hserial ht8 _ _ := h.congr hserial ht8
  read _ _ _ _ h hget := h.portGet hget
  write _ _ val h hport htimer := h.portSet hport htimer val
  update m h := by
    have hbyte := serUpdateTime_serCycles m.clock m.serial
    exact ⟨hbyte ▸ h.serial, gated_t8CheckNextCycle _ _⟩
  reset m _ := by
    refine ⟨?_, gated_t8Reset m.clock m.t8⟩
    simp only [resetPeripherals, serReset]
    exact serUpdateCycles_lt _ _

theorem scheduled_invariant : DeviceInvariant Scheduled where
  toDeviceRule := scheduled_rule
  poll m h := by
    have hrearm : m.rearm.Scheduled := h.congr rfl rfl
    exact (scheduled_rule.waitPeripherals hrearm).congr rfl rfl

end Scheduled

section Synchronization

/-- One of the commands that arrive next clears the interrupt mask. -/
def unmasks (m : Machine) : Bool :=
  (m.arrivals.headD []).any Command.unmasks

/-- Synchronizing has reset nothing: the devices are as before, and the
deadlines have not moved into the past. -/
structure SleepsOn (m m' : Machine) : Prop where
  cycles : m'.cycles = m.cycles
  serial : m'.serial = m.serial
  t16 : m'.t16 = m.t16
  t8 : m'.t8 = m.t8
  adcsr : m'.ad.adcsr = m.ad.adcsr
  adStartCycle : m'.ad.adStartCycle = m.ad.adStartCycle
  wdog : m'.wdog = m.wdog
  motor : m'.motor = m.motor
  timer : m.cycles ≤ m'.clock.nextTimerCycle
  nmi : m.cycles ≤ m'.clock.nextNmiCycle

theorem btnReadFd_ahead (button : Button) (pressed : Bool)
    (buttons : Buttons) {clock : Clock} {n : ℕ} (hcycles : clock.cycles = n)
    (hahead : n ≤ clock.nextTimerCycle) :
    (btnReadFd button pressed clock buttons).2.cycles = n ∧
      n ≤ (btnReadFd button pressed clock buttons).2.nextTimerCycle := by
  simp only [btnReadFd, btnCheckNextCycle]
  generalize (if pressed = true then (0 : Byte) else 0xff) = newval
  split_ifs
  · exact ⟨hcycles, hcycles.ge⟩
  · exact ⟨hcycles, hahead⟩
  · exact ⟨hcycles, hahead⟩

theorem SleepsOn.handleCommand (h : SleepsOn m m')
    (command : Command) : SleepsOn m (m'.handleCommand command) := by
  cases command with
  | button button pressed =>
      obtain ⟨hcycles, htimer⟩ :=
        btnReadFd_ahead button pressed m'.buttons h.cycles h.timer
      exact { h with
        cycles := hcycles
        timer := htimer
        nmi := (btnReadFd_nextNmi button pressed _ _).symm ▸ h.nmi }
  | poke addr val | setTrap addr kind | clearTrap addr kind =>
      simp only [Machine.handleCommand, debuggerWrite]
      split_ifs
      · exact { h with }
      · exact h
  | _ => exact { h with }

theorem handleCommand_sleeping (m : Machine) (command : Command) :
    (m.handleCommand command).sleeping = m.sleeping := by
  cases command with
  | poke addr val | setTrap addr kind | clearTrap addr kind =>
      simp only [handleCommand, debuggerWrite]
      split_ifs <;> rfl
  | _ => rfl

theorem handleCommand_masked {command : Command}
    (hkeeps : command.unmasks = false) (hmasked : m.masked = true) :
    (m.handleCommand command).masked = true := by
  cases command with
  | setCcr val =>
      have hset : ¬ val &&& 0x80 = 0 := by
        simpa [Command.unmasks] using hkeeps
      exact decide_eq_true hset
  | poke addr val | setTrap addr kind | clearTrap addr kind =>
      simp only [handleCommand, debuggerWrite]
      split_ifs
      · exact hmasked
      · exact hmasked
  | _ => exact hmasked

/-- A sleep that goes on has not seen a reset among the commands. -/
theorem sleepsOn_foldl (fuel : ℕ) (commands : List Command) :
    ∀ m' : Machine, (m'.sleeping = true → SleepsOn m m') →
      (commands.foldl (receive fuel) m').sleeping = true →
        SleepsOn m (commands.foldl (receive fuel) m') := by
  induction commands with
  | nil => exact fun _ h => h
  | cons command commands ih =>
      intro m' h
      apply ih
      intro hsleeping
      by_cases hreset : command = .reset
      · subst hreset
        exact absurd hsleeping Bool.false_ne_true
      · rw [receive_of_ne hreset] at hsleeping ⊢
        rw [handleCommand_sleeping] at hsleeping
        exact (h hsleeping).handleCommand command

theorem masked_foldl (fuel : ℕ) (commands : List Command) :
    ∀ m' : Machine, commands.any Command.unmasks = false →
      (m'.sleeping = true → m'.masked = true) →
      (commands.foldl (receive fuel) m').sleeping = true →
        (commands.foldl (receive fuel) m').masked = true := by
  induction commands with
  | nil => exact fun _ _ h => h
  | cons command commands ih =>
      intro m' hkeeps h
      rw [List.any_cons, Bool.or_eq_false_iff] at hkeeps
      apply ih _ hkeeps.2
      intro hsleeping
      by_cases hreset : command = .reset
      · subst hreset
        exact absurd hsleeping Bool.false_ne_true
      · rw [receive_of_ne hreset] at hsleeping ⊢
        rw [handleCommand_sleeping] at hsleeping
        exact handleCommand_masked hkeeps.1 (h hsleeping)

theorem SleepsOn.reschedule (h : SleepsOn m m') :
    SleepsOn m m'.reschedule := by
  have hclock : m'.reschedule.clock = m'.clock := by
    simp only [Machine.reschedule]
  refine ⟨?_, ?_, ?_, ?_, ?_, ?_, ?_, ?_, ?_, ?_⟩
  · exact (congrArg Clock.cycles hclock).trans h.cycles
  all_goals simp only [Machine.reschedule]
  · exact h.serial
  · exact h.t16
  · exact h.t8
  · exact h.adcsr
  · exact h.adStartCycle
  · exact h.wdog
  · exact h.motor
  · exact h.timer
  · exact h.nmi

@[simp] theorem reschedule_sleeping (m : Machine) :
    m.reschedule.sleeping = m.sleeping := by
  simp only [reschedule]

@[simp] theorem reschedule_masked (m : Machine) :
    m.reschedule.masked = m.masked := by
  have hccr : m.reschedule.ccr = m.ccr := by
    simp only [reschedule]
  exact congrArg (fun ccr : Byte => decide (ccr &&& 0x80 ≠ 0)) hccr

theorem sleepsOn_synchronizeTime (htimer : m.cycles ≤ m.clock.nextTimerCycle)
    (hnmi : m.cycles ≤ m.clock.nextNmiCycle)
    (hsleeping : m.synchronizeTime.sleeping = true) :
    SleepsOn m m.synchronizeTime := by
  have hpaced : SleepsOn m m.pace :=
    ⟨rfl, rfl, rfl, rfl, rfl, rfl, rfl, rfl, htimer, hnmi⟩
  rw [synchronizeTime_eq] at hsleeping ⊢
  split_ifs at hsleeping ⊢
  · have harrived : SleepsOn m
        { m.pace with arrivals := m.arrivals.tail } := { hpaced with }
    rw [reschedule_sleeping] at hsleeping
    exact (sleepsOn_foldl _ _ _ (fun _ => harrived) hsleeping).reschedule
  · exact hpaced

theorem masked_synchronizeTime (hkeeps : m.unmasks = false)
    (hmasked : m.masked = true)
    (hsleeping : m.synchronizeTime.sleeping = true) :
    m.synchronizeTime.masked = true := by
  rw [synchronizeTime_eq] at hsleeping ⊢
  split_ifs at hsleeping ⊢
  · rw [reschedule_sleeping] at hsleeping
    rw [reschedule_masked]
    exact masked_foldl _ _ _ hkeeps (fun _ => hmasked) hsleeping
  · exact hmasked

end Synchronization

section Deadlines

/-- Everything that raises a maskable interrupt has been counted in time. -/
structure Recent (m : Machine) : Prop where
  t16 : Elapsed m.t16.myLastCycles m.cycles
  t8 : m.t8.shift ≠ 31 → Elapsed m.t8.ch0.lastCycles m.cycles
  ad : m.ad.Recent m.cycles
  motor : m.motor.Recent m.cycles

/-- No timer has left an enabled compare value behind. -/
structure EventsAhead (m : Machine) : Prop where
  t16 : m.t16.EventAhead
  t8 : m.t8.shift ≠ 31 → m.t8.ch0.EventAhead

instance (m : Machine) : Decidable m.Recent :=
  decidable_of_iff (Elapsed m.t16.myLastCycles m.cycles ∧
    (m.t8.shift ≠ 31 → Elapsed m.t8.ch0.lastCycles m.cycles) ∧
      m.ad.Recent m.cycles ∧ m.motor.Recent m.cycles)
    ⟨fun h => ⟨h.1, h.2.1, h.2.2.1, h.2.2.2⟩,
      fun h => ⟨h.t16, h.t8, h.ad, h.motor⟩⟩

instance (m : Machine) : Decidable m.EventsAhead :=
  decidable_of_iff
    (m.t16.EventAhead ∧ (m.t8.shift ≠ 31 → m.t8.ch0.EventAhead))
    ⟨fun h => ⟨h.1, h.2⟩, fun h => ⟨h.t16, h.t8⟩⟩

theorem SleepsOn.recent (h : SleepsOn m m') (hrecent : m.Recent) :
    m'.Recent where
  t16 := by
    rw [h.t16, h.cycles]
    exact hrecent.t16
  t8 := by
    rw [h.t8, h.cycles]
    exact hrecent.t8
  ad := by
    unfold AdSensors.Recent
    rw [h.adcsr, h.adStartCycle, h.cycles]
    exact hrecent.ad
  motor := by
    rw [h.motor, h.cycles]
    exact hrecent.motor

/-- The clocks between the updates of the peripherals, at the same cycle. -/
def Clock.Ahead (n : ℕ) (clock : Clock) : Prop :=
  clock.cycles = n ∧ n ≤ clock.nextTimerCycle

/-- An update at the same cycle that keeps the deadline ahead. -/
theorem Clock.Ahead.next {n : ℕ} {clock clock' : Clock}
    (h : Clock.Ahead n clock) (hcycles : clock'.cycles = clock.cycles)
    (hkept : clock.cycles ≤ clock.nextTimerCycle →
      clock.cycles ≤ clock'.nextTimerCycle) : Clock.Ahead n clock' := by
  obtain ⟨rfl, hahead⟩ := h
  exact ⟨hcycles, hkept hahead⟩

/-- The updates leave the deadline of the timers at the present or in the
future. -/
theorem updateTimes_timer (hscheduled : m.Scheduled) (hrecent : m.Recent)
    (hwdog : m.wdog.Recent m.cycles)
    (hclear : m.updateTimes.wdog.tcsr &&& Watchdog.OVF = 0)
    (hevents : m.updateTimes.EventsAhead)
    (hahead : m.cycles ≤ m.clock.nextTimerCycle) :
    m.cycles ≤ m.updateTimes.clock.nextTimerCycle := by
  obtain ⟨c₁, hc₁⟩ : ∃ c, c = (serUpdateTime m.clock m.serial).2 := ⟨_, rfl⟩
  obtain ⟨c₂, hc₂⟩ : ∃ c, c = (t16UpdateTime c₁ m.t16).2 := ⟨_, rfl⟩
  obtain ⟨c₃, hc₃⟩ : ∃ c, c = (t8UpdateTime c₂ m.t8).2 := ⟨_, rfl⟩
  obtain ⟨c₄, hc₄⟩ : ∃ c, c = (adUpdateTime c₃ m.ad).2 := ⟨_, rfl⟩
  have h₁ : Clock.Ahead m.cycles c₁ := by
    have hbyte := serUpdateTime_serCycles m.clock m.serial
    rw [hc₁]
    exact ⟨serCheckNextCycle_cycles _ _,
      serCheckNextCycle_ahead (hbyte ▸ hscheduled.serial) hahead⟩
  have h₂ : Clock.Ahead m.cycles c₂ := by
    rw [hc₂]
    apply h₁.next (t16CheckNextCycle_cycles _ _)
    apply t16UpdateTime_ahead
    · rw [h₁.1]
      exact hrecent.t16
    · rw [hc₁]
      exact hevents.t16
  have h₃ : Clock.Ahead m.cycles c₃ := by
    have helapsed : m.t8.shift ≠ 31 →
        Elapsed m.t8.ch0.lastCycles c₂.cycles := by
      rw [h₂.1]
      exact hrecent.t8
    have hshift := shift_t8UpdateTime helapsed
    have hevent : m.t8.shift ≠ 31 →
        (t8UpdateTime c₂ m.t8).1.ch0.EventAhead := by
      intro hrunning
      rw [← hshift] at hrunning
      rw [hc₂, hc₁] at hrunning ⊢
      exact hevents.t8 hrunning
    rw [hc₃]
    exact h₂.next (t8CheckNextCycle_cycles _ _)
      (t8UpdateTime_ahead hscheduled.t8 helapsed hevent)
  have h₄ : Clock.Ahead m.cycles c₄ := by
    rw [hc₄]
    apply h₃.next (adCheckNextCycle_cycles _ _)
    apply adUpdateTime_ahead
    rw [h₃.1]
    exact hrecent.ad
  have h₅ : Clock.Ahead m.cycles (wdogUpdateTime c₄ m.wdog).2 := by
    apply h₄.next (wdogUpdateTime_cycles _ _)
    intro hbefore
    apply (Watchdog.updateTime_ahead _ _).1 hbefore
    · rw [h₄.1]
      exact hwdog
    · rw [hc₄, hc₃, hc₂, hc₁]
      exact hclear
  have hmotor : (wdogUpdateTime c₄ m.wdog).2.cycles ≤
      (motorUpdateTime (wdogUpdateTime c₄ m.wdog).2
        m.motor).2.1.nextTimerCycle := by
    apply motorUpdateTime_ahead
    · rw [h₅.1]
      exact hrecent.motor
    · exact h₅.1 ▸ h₅.2
  rw [h₅.1, hc₄, hc₃, hc₂, hc₁] at hmotor
  exact hmotor

/-- Only the watchdog moves the deadline of the non-maskable interrupt. -/
theorem updateTimes_nmi (hwdog : m.wdog.Recent m.cycles)
    (hclear : m.updateTimes.wdog.tcsr &&& Watchdog.OVF = 0)
    (hahead : m.cycles ≤ m.clock.nextNmiCycle) :
    m.cycles ≤ m.updateTimes.clock.nextNmiCycle := by
  obtain ⟨c₁, hc₁⟩ : ∃ c, c = (serUpdateTime m.clock m.serial).2 := ⟨_, rfl⟩
  obtain ⟨c₂, hc₂⟩ : ∃ c, c = (t16UpdateTime c₁ m.t16).2 := ⟨_, rfl⟩
  obtain ⟨c₃, hc₃⟩ : ∃ c, c = (t8UpdateTime c₂ m.t8).2 := ⟨_, rfl⟩
  obtain ⟨c₄, hc₄⟩ : ∃ c, c = (adUpdateTime c₃ m.ad).2 := ⟨_, rfl⟩
  have hcycles : c₄.cycles = m.cycles := by
    simp only [hc₄, hc₃, hc₂, hc₁, adUpdateTime, t8UpdateTime, t16UpdateTime,
      serUpdateTime, adCheckNextCycle_cycles, t8CheckNextCycle_cycles,
      t16CheckNextCycle_cycles, serCheckNextCycle_cycles, Machine.cycles]
  have hnmi : c₄.nextNmiCycle = m.clock.nextNmiCycle := by
    simp only [hc₄, hc₃, hc₂, hc₁, adUpdateTime, t8UpdateTime, t16UpdateTime,
      serUpdateTime, adCheckNextCycle_nextNmi, t8CheckNextCycle_nextNmi,
      t16CheckNextCycle_nextNmi, serCheckNextCycle_nextNmi]
  have hupdated : c₄.cycles ≤ (wdogUpdateTime c₄ m.wdog).2.nextNmiCycle := by
    apply (Watchdog.updateTime_ahead _ _).2
    · rw [hcycles, hnmi]
      exact hahead
    · rw [hcycles]
      exact hwdog
    · rw [hc₄, hc₃, hc₂, hc₁]
      exact hclear
  rw [hcycles, hc₄, hc₃, hc₂, hc₁] at hupdated
  exact hupdated

/-- A poll that selects nothing has not seen an overflow of the watchdog. -/
theorem overflow_of_checkIrq_none (houtcome : m.checkIrq.1 = .none) :
    m.polled.wdog.tcsr &&& Watchdog.OVF = 0 := by
  by_contra hover
  rcases m.polled.pollIrqs_priority with ⟨-, -, hlow⟩ | ⟨hclear, -⟩
  · have hpasses : m.polled.pollIrqs.1 <
        if m.polled.pollIrqs.2.masked then 4 else 255 := by
      split_ifs <;> omega
    rw [checkIrq_fst, selectIrq, if_pos hpasses] at houtcome
    split_ifs at houtcome
  · exact hover hclear

theorem pollIrqs_clock (hclear : m.wdog.tcsr &&& Watchdog.OVF = 0) :
    m.pollIrqs.2.clock = m.clock := by
  simp only [pollIrqs, wdogCheckIrq, hclear, ne_eq, not_true_eq_false,
    if_false]

/-- In a sleep that goes on, the check has not put the deadline into the
past. -/
theorem checkIrq_ahead (houtcome : m.checkIrq.1 = .none)
    (hsleeping : m.checkIrq.2.sleeping = true) (hscheduled : m.Scheduled)
    (hwdog : m.wdog.Recent m.cycles)
    (hrecent : m.masked = false ∨ m.unmasks = true → m.Recent)
    (hevents : m.checkIrq.2.masked = false → m.checkIrq.2.EventsAhead) :
    m.checkIrq.2.cycles ≤ m.checkIrq.2.deadline := by
  have hclear := overflow_of_checkIrq_none houtcome
  have hnone : m.checkIrq.2 = m.polled.pollIrqs.2 := by
    rw [checkIrq_snd, houtcome]
  have hclock : m.checkIrq.2.clock = m.polled.clock := by
    rw [hnone]
    exact pollIrqs_clock hclear
  obtain ⟨m₂, hm₂⟩ : ∃ m₂, m₂ = m.rearm.synchronizeTime := ⟨_, rfl⟩
  have hpolled : m.polled = m₂.updateTimes := by
    rw [hm₂]
    rfl
  have hasleep : m.rearm.synchronizeTime.sleeping = true := by
    rw [hnone] at hsleeping
    exact hsleeping
  have hlater : ∀ n : ℕ, n ≤ addToCycle n MAX_AUTONOMOUS_CYCLES := by
    intro n
    rw [addToCycle, ← Nat.cast_add, uint64_natCast]
    exact Nat.le_add_right _ _
  have hsame : SleepsOn m.rearm m₂ := by
    rw [hm₂]
    exact sleepsOn_synchronizeTime (hlater m.cycles) (hlater m.cycles)
      hasleep
  have hmasked : m.checkIrq.2.masked = m₂.masked := by
    rw [hnone, hpolled]
    rfl
  have hcycles : m.checkIrq.2.cycles = m₂.cycles := by
    rw [Machine.cycles, hclock, hpolled]
    exact m₂.updateTimes_cycles
  have hwatched : m₂.wdog.Recent m₂.cycles := by
    rw [hsame.wdog, hsame.cycles]
    exact hwdog
  rw [hpolled] at hclear hclock
  rw [deadline, hmasked, hcycles, hclock]
  split_ifs with hmask
  · exact updateTimes_nmi hwatched hclear (hsame.cycles ▸ hsame.nmi)
  · have hopen : m₂.masked = false := by simpa using hmask
    have hjust : m.Recent := by
      apply hrecent
      by_contra hneither
      rw [not_or, Bool.not_eq_false, Bool.not_eq_true] at hneither
      have hkept := masked_synchronizeTime (m := m.rearm) hneither.2
        hneither.1 hasleep
      rw [← hm₂, hopen] at hkept
      exact absurd hkept Bool.false_ne_true
    have hready : m.rearm.Recent := { hjust with }
    have hscheduled₂ : m₂.Scheduled := hscheduled.congr hsame.serial hsame.t8
    have hevents₂ : m₂.updateTimes.EventsAhead := by
      have hnext := hevents (hmasked.trans hopen)
      rw [hnone, hpolled] at hnext
      exact { hnext with }
    exact updateTimes_timer hscheduled₂ (hsame.recent hready) hwatched hclear
      hevents₂ (hsame.cycles ▸ hsame.timer)

end Deadlines

end Machine

end BrickEmu
