import BrickEmu.DeviceInvariant

/-!
# The deadline of the watchdog

While the watchdog counts, the deadline for the non-maskable interrupt is not
later than its next overflow.  No other peripheral moves that deadline, every
change of the watchdog's registers computes it again, and so does the update
behind the point where `check_irq` pushes it into the future.
-/

namespace BrickEmu

open Watchdog

/-! ## Who moves the deadline -/

section Deadline

@[simp] theorem serCheckNextCycle_nextNmi (serial : Serial) (clock : Clock) :
    (serCheckNextCycle serial clock).nextNmiCycle = clock.nextNmiCycle := by
  simp only [serCheckNextCycle]
  split_ifs <;> rfl

@[simp] theorem t8CheckNextCycle_nextNmi (timer : Timer8) (clock : Clock) :
    (t8CheckNextCycle timer clock).2.nextNmiCycle = clock.nextNmiCycle := by
  simp only [t8CheckNextCycle]
  split_ifs <;> rfl

@[simp] theorem adCheckNextCycle_nextNmi (ad : AdSensors) (clock : Clock) :
    (adCheckNextCycle ad clock).nextNmiCycle = clock.nextNmiCycle := by
  simp only [adCheckNextCycle]
  split_ifs <;> rfl

@[simp] theorem t8UpdateTime_nextNmi (timer : Timer8) (clock : Clock) :
    (t8UpdateTime clock timer).2.nextNmiCycle = clock.nextNmiCycle :=
  t8CheckNextCycle_nextNmi _ clock

@[simp] theorem t8Force0_nextNmi (timer : Timer8) (clock : Clock) :
    (t8Force0 clock timer).2.nextNmiCycle = clock.nextNmiCycle :=
  t8UpdateTime_nextNmi _ clock

@[simp] theorem t8Force1_nextNmi (timer : Timer8) (clock : Clock) :
    (t8Force1 clock timer).2.nextNmiCycle = clock.nextNmiCycle :=
  t8UpdateTime_nextNmi _ clock

theorem t8Read_nextNmi (clock : Clock) (timer : Timer8)
    (register : T8Register) :
    (t8Read clock timer register).2.2.nextNmiCycle = clock.nextNmiCycle := by
  cases register <;> simp [t8Read]

theorem t8Write_nextNmi (val : Byte) (clock : Clock) (timer : Timer8)
    (register : T8Register) :
    (t8Write val clock timer register).2.nextNmiCycle =
      clock.nextNmiCycle := by
  cases register with
  | STCR =>
      simp only [t8Write, setSTCR]
      split_ifs
      · rfl
      · simp
  | _ =>
      simp [t8Write, setTCR0, setTCSR0, setTCNT0, setTCORA0, setTCORB0,
        setTCR1, setTCSR1, setTCNT1, setTCORA1, setTCORB1, t8Set0, t8Set1]

end Deadline

/-! ## The watchdog's own operations -/

/-- While the watchdog counts, the deadline is not later than its next
overflow. -/
def Watchdog.Due (wdog : Watchdog) (clock : Clock) : Prop :=
  wdog.tcsr &&& TME ≠ 0 → clock.nextNmiCycle ≤ wdog.nextCycle

theorem due_wdogCheckNextCycle (wdog : Watchdog) (clock : Clock) :
    wdog.Due (wdogCheckNextCycle wdog clock) := by
  intro hcounts
  rw [wdogCheckNextCycle, if_pos hcounts]
  exact min_le_left _ _

theorem due_wdogReset (clock clock' : Clock) (wdog : Watchdog) :
    (wdogReset clock wdog).Due clock' := by
  intro hcounts
  have hstill : (0x10 : Byte) &&& TME = 0 := by decide
  exact absurd hstill hcounts

/-- The update needs no assumption about the deadline. -/
theorem due_wdogUpdateTime (clock : Clock) (wdog : Watchdog) :
    (wdogUpdateTime clock wdog).1.Due (wdogUpdateTime clock wdog).2 := by
  by_cases hcounts : wdog.tcsr &&& TME = 0
  · simp only [wdogUpdateTime, hcounts, ne_eq, not_true_eq_false, if_false]
    exact fun h => absurd hcounts h
  · simp only [wdogUpdateTime, ne_eq, hcounts, not_false_eq_true, if_true]
    exact due_wdogCheckNextCycle _ clock

theorem Watchdog.Due.setVal {wdog : Watchdog} {clock : Clock}
    (h : wdog.Due clock) (val : Byte) :
    (setVal val clock wdog).1.Due (setVal val clock wdog).2 := by
  simp only [BrickEmu.setVal]
  split_ifs
  · exact due_wdogCheckNextCycle _ _
  · exact due_wdogCheckNextCycle _ _
  · exact h

theorem freq_clear_OVF :
    ∀ tcsr : Byte, freq (tcsr &&& ~~~OVF) = freq tcsr ∧
      ((tcsr &&& ~~~OVF) &&& TME ≠ 0 → tcsr &&& TME ≠ 0) := by
  decide +kernel

/-- A reset that is about to happen pulls the deadline to its end. -/
theorem Watchdog.Due.checkIrq {wdog : Watchdog} {clock : Clock}
    (h : wdog.Due clock) :
    (wdogCheckIrq clock wdog).2.1.Due (wdogCheckIrq clock wdog).2.2 := by
  obtain ⟨hfreq, hcounts⟩ := freq_clear_OVF wdog.tcsr
  have hnext : ({ wdog with tcsr := wdog.tcsr &&& ~~~OVF } :
      Watchdog).nextCycle = wdog.nextCycle := by
    simp only [nextCycle, hfreq]
  simp only [wdogCheckIrq]
  split_ifs
  · intro _
    rw [hnext]
    exact Nat.le_add_right _ _
  · intro htme
    rw [hnext]
    exact h (hcounts htme)
  · exact h

namespace Machine

def Watched (m : Machine) : Prop :=
  m.wdog.Due m.clock

variable {m m' : Machine}

theorem Watched.congr (h : m.Watched) (hwdog : m'.wdog = m.wdog)
    (hnmi : m'.clock.nextNmiCycle = m.clock.nextNmiCycle) : m'.Watched := by
  intro hcounts
  rw [hwdog] at hcounts
  rw [hnmi, hwdog]
  exact h hcounts

theorem watched_updateTimes (m : Machine) : m.updateTimes.Watched := by
  have hdue := due_wdogUpdateTime
    (adUpdateTime (t8UpdateTime ({ m with
      serial := (serUpdateTime m.clock m.serial).1
      clock := (serUpdateTime m.clock m.serial).2 } :
        Machine).updateT16.clock m.t8).2 m.ad).2 m.wdog
  exact hdue

theorem watched_resetPeripherals (m : Machine) :
    m.resetPeripherals.Watched :=
  due_wdogReset m.clock m.clock m.wdog

/-! ## The registers -/

theorem portGet_watched {port : Port} {val : Byte}
    (hget : m.portGet port = some (val, m')) (h : m.Watched) : m'.Watched := by
  cases port with
  | t16 register =>
      obtain ⟨-, rfl⟩ := Prod.mk.inj (Option.some.inj hget)
      exact h
  | t8 register =>
      obtain ⟨-, rfl⟩ := Prod.mk.inj (Option.some.inj hget)
      exact h.congr rfl (t8Read_nextNmi m.clock m.t8 register)
  | serial register =>
      cases register <;>
        obtain ⟨-, rfl⟩ := Prod.mk.inj (Option.some.inj hget) <;>
        exact h
  | port6 => cases hget
  | wdogControl | adcsr | addrh channel =>
      obtain ⟨-, rfl⟩ := Prod.mk.inj (Option.some.inj hget)
      exact h
  | _ =>
      obtain ⟨-, rfl⟩ := Prod.mk.inj (Option.some.inj hget)
      exact h

theorem Watched.portSet (h : m.Watched) {port : Port}
    (hport : port ≠ .port6) (htimer : ∀ register, port ≠ .t16 register)
    (val : Byte) : (m.portSet port val).Watched := by
  cases port with
  | t16 register => exact absurd rfl (htimer register)
  | wdogControl => exact h
  | wdogValue => exact Due.setVal h val
  | port6 => exact absurd rfl hport
  | iscr => exact h.congr rfl (btnCheckNextCycle_nextNmi _ _)
  | ier => exact h.congr rfl (btnCheckNextCycle_nextNmi _ _)
  | t8 register => exact h.congr rfl (t8Write_nextNmi _ _ _ _)
  | serial register =>
      cases register with
      | SCR => exact h.congr rfl (serCheckNextCycle_nextNmi _ _)
      | SSR => exact h.congr rfl (serCheckNextCycle_nextNmi _ _)
      | _ => exact h
  | adcsr => exact h.congr rfl (adCheckNextCycle_nextNmi _ _)
  | adcr => exact h.congr rfl (adCheckNextCycle_nextNmi _ _)
  | _ => exact h

/-- `check_irq` pushes the deadline away, and the update behind that point
pulls it back. -/
theorem watched_poll (m : Machine) :
    m.rearm.waitPeripherals.pollIrqs.2.Watched :=
  Due.checkIrq (watched_updateTimes _)

theorem watched_invariant : DeviceInvariant Watched where
  same _ _ h _ _ hwdog hnmi := h.congr hwdog hnmi
  read _ _ _ _ h hget := portGet_watched hget h
  write _ _ val h hport htimer := h.portSet hport htimer val
  update m _ := watched_updateTimes m
  reset m _ := watched_resetPeripherals m
  poll m _ := watched_poll m

end Machine

namespace Cpu

open Machine

/-- The passes of `run_cpu`, and the guest's accesses to the watchdog, the
passing of time, the updates and the polls in any other order. -/
inductive WatchdogStep : Cpu → Cpu → Prop where
  | run (cpu : Cpu) : WatchdogStep cpu cpu.step
  | time (cpu : Cpu) (n : ℕ) :
      WatchdogStep cpu { cpu with machine := cpu.machine.addCycles n }
  | read (cpu : Cpu) (port : Port) (val : Byte) (m : Machine) :
      cpu.machine.portGet port = some (val, m) →
        WatchdogStep cpu { cpu with machine := m }
  | write (cpu : Cpu) (port : Port) (val : Byte) :
      WatchdogStep cpu { cpu with machine := cpu.machine.portSet port val }
  | update (cpu : Cpu) :
      WatchdogStep cpu { cpu with machine := cpu.machine.updateTimes }
  | poll (cpu : Cpu) :
      WatchdogStep cpu { cpu with machine := cpu.machine.checkIrq.2 }

theorem WatchdogStep.watched {cpu cpu' : Cpu} (hstep : WatchdogStep cpu cpu')
    (h : cpu.machine.Watched) : cpu'.machine.Watched := by
  cases hstep with
  | run => exact watched_invariant.step h
  | time n => exact watched_invariant.addCycles h n
  | read port val m hget => exact portGet_watched hget h
  | write port val => exact watched_invariant.portSet h port val
  | update => exact watched_updateTimes cpu.machine
  | poll => exact watched_invariant.checkIrq h

theorem watched_of_reachable {m : Machine} {cpu : Cpu}
    (hreach : Relation.ReflTransGen WatchdogStep (start m) cpu) :
    cpu.machine.Watched := by
  induction hreach with
  | refl => exact watched_invariant.finishReset (watched_updateTimes _)
  | tail _ hstep ih => exact hstep.watched ih

theorem watchdogStep_run (m : Machine) (n : ℕ) :
    Relation.ReflTransGen WatchdogStep (start m) (run m n) := by
  induction n with
  | zero => exact Relation.ReflTransGen.refl
  | succ n ih =>
      have hlast : run m (n + 1) = (run m n).step :=
        Function.iterate_succ_apply' step n (start m)
      rw [hlast]
      exact ih.tail (WatchdogStep.run (run m n))

/-- At an instruction boundary at or after the overflow the processor polls
for interrupts, also with the interrupt mask set. -/
def PollsAtOverflow (cpu : Cpu) : Prop :=
  cpu.phase = .ready → cpu.machine.masked →
    cpu.machine.wdog.nextCycle ≤ cpu.machine.cycles →
      cpu.step = { cpu with machine := cpu.machine.pollIrq, phase := .top }

/-- In every state that is reachable from a reset the deadline is not later
than the overflow of a running watchdog.  So the overflow is noticed at the
first boundary behind it at which interrupts are not held off. -/
theorem watchdog_in_time {m : Machine} {cpu : Cpu}
    (hreach : Relation.ReflTransGen WatchdogStep (start m) cpu)
    (hcounts : cpu.machine.wdog.tcsr &&& TME ≠ 0) :
    cpu.machine.clock.nextNmiCycle ≤ cpu.machine.wdog.nextCycle ∧
      (cpu.machine.irqDisabledOne = false → cpu.PollsAtOverflow) := by
  have hdue := watched_of_reachable hreach hcounts
  refine ⟨hdue, ?_⟩
  intro hopen hphase hmasked hpast
  have hdeadline : cpu.machine.deadline ≤ cpu.machine.cycles := by
    rw [deadline, if_pos hmasked]
    exact hdue.trans hpast
  simp only [step, hphase, dispatch, hopen, Bool.false_eq_true, if_false,
    hdeadline, if_true]

/-- The guest starts the watchdog one tick before its overflow; ORC and NOP
follow. -/
def startWatchdog : Machine :=
  Machine.powerOn
    (fun addr =>
      ([0x00, 0x10, 0, 0, 0, 0, 0x00, 0x10, 0, 0, 0, 0, 0, 0, 0, 0,
        0x79, 0x00, 0x5a, 0xff, 0x6b, 0x80, 0xff, 0xa8,
        0x79, 0x00, 0xa5, 0x20, 0x6b, 0x80, 0xff, 0xa8,
        0x04, 0x00, 0x00, 0x00, 0x00, 0x00] : List Byte)[addr]?)
    [] [] []

theorem watchdog_in_time_startWatchdog :
    (run startWatchdog 15).step =
      { run startWatchdog 15 with
        machine := (run startWatchdog 15).machine.pollIrq, phase := .top } :=
  (watchdog_in_time (watchdogStep_run startWatchdog 15)
    (by decide +kernel)).2 (by decide +kernel) (by decide +kernel)
      (by decide +kernel) (by decide +kernel)

/-- The overflow falls on the end of ORC, and NOP is executed before the
poll. -/
theorem orC_holds_off_watchdog :
    ¬∀ cpu, Relation.ReflTransGen WatchdogStep (start startWatchdog) cpu →
      cpu.machine.wdog.tcsr &&& TME ≠ 0 → cpu.PollsAtOverflow := by
  intro hclaim
  have hpoll := hclaim (run startWatchdog 13)
    (watchdogStep_run startWatchdog 13) (by decide +kernel)
    (by decide +kernel) (by decide +kernel) (by decide +kernel)
  have hpc := congrArg (fun cpu : Cpu => cpu.machine.pc) hpoll
  revert hpc
  decide +kernel

end Cpu

end BrickEmu
