import BrickEmu.CycleCounter
import BrickEmu.LightSleep
import BrickEmu.TrapAtomicity

/-!
# The direction of time

The cycle counter is assigned where the processor sleeps and where the
watchdog resets it.  Time goes on in every run in which SLEEP is over before
the deadline, the counters that may wake the processor have been counted in
time and have their next events ahead, and the watchdog asks for no reset
that is over already.
-/

namespace BrickEmu

open Program

namespace Machine

section WatchdogReset

variable {m : Machine}

theorem getWord_zero_wdog (m : Machine) : (m.getWord 0).2.wdog = m.wdog := by
  have hrom : ¬ 0xff88 < (0 : Word).toNat := by decide
  simp only [getWord, getWordDiv, if_neg hrom]
  split_ifs <;> rfl

theorem updateTimes_wdog (m : Machine) :
    m.updateTimes.wdog = (wdogUpdateTime m.clock m.wdog).1 := by
  have hcycles : ∀ clock : Clock, clock.cycles = m.clock.cycles →
      (wdogUpdateTime clock m.wdog).1 = (wdogUpdateTime m.clock m.wdog).1 := by
    intro clock hsame
    simp only [wdogUpdateTime, hsame]
    split_ifs <;> rfl
  apply hcycles (adUpdateTime (t8UpdateTime (t16UpdateTime
    (serUpdateTime m.clock m.serial).2 m.t16).2 m.t8).2 m.ad).2
  simp only [adUpdateTime, t8UpdateTime, t16UpdateTime, serUpdateTime,
    adCheckNextCycle_cycles, t8CheckNextCycle_cycles,
    t16CheckNextCycle_cycles, serCheckNextCycle_cycles]

theorem handleCommand_wdog (m : Machine) (command : Command) :
    (m.handleCommand command).wdog = m.wdog := by
  cases command with
  | poke addr val | setTrap addr kind | clearTrap addr kind =>
      simp only [handleCommand, debuggerWrite]
      split_ifs <;> rfl
  | _ => rfl

theorem handleCommand_cycles (m : Machine) (command : Command) :
    (m.handleCommand command).cycles = m.cycles :=
  congrArg Pacing.cycles (pacing_handleCommand 0 m command)

/-- A watchdog that has been reset stays as it is while the processor
waits. -/
theorem synchronized_resetWatchdog :
    Synchronized fun m => m.wdog.tcsr = 0x10 where
  pace _ h := h
  arrive _ h := h
  handle m command h := by
    rw [handleCommand_wdog]
    exact h
  beginReset _ _ := rfl
  finishReset m h := by
    have hstill : ¬ m.wdog.tcsr &&& Watchdog.TME ≠ 0 := by
      rw [h]
      decide
    have hkept : m.updateTimes.wdog = m.wdog := by
      simp only [updateTimes_wdog, wdogUpdateTime, if_neg hstill]
    show (getWord 0 _).2.wdog.tcsr = 0x10
    rw [getWord_zero_wdog]
    show m.updateTimes.wdog.tcsr = 0x10
    rw [hkept, h]
  reschedule m h := by
    simp only [reschedule]
    exact h

/-- Synchronizing leaves the watchdog alone, or the GUI has reset it. -/
theorem synchronizeTime_wdog (m : Machine) :
    (m.synchronizeTime.wdog = m.wdog ∧ m.synchronizeTime.cycles = m.cycles) ∨
      m.synchronizeTime.wdog.tcsr = 0x10 := by
  have hfold : ∀ (fuel : ℕ) (commands : List Command) (m' : Machine),
      (m'.wdog = m.wdog ∧ m'.cycles = m.cycles) ∨ m'.wdog.tcsr = 0x10 →
        ((commands.foldl (receive fuel) m').wdog = m.wdog ∧
          (commands.foldl (receive fuel) m').cycles = m.cycles) ∨
        (commands.foldl (receive fuel) m').wdog.tcsr = 0x10 := by
    intro fuel commands
    induction commands with
    | nil => exact fun _ h => h
    | cons command commands ih =>
        intro m' h
        apply ih
        by_cases hreset : command = .reset
        · subst hreset
          right
          exact synchronized_resetWatchdog.finishReset _
            (synchronized_resetWatchdog.synchronizeFuel fuel rfl)
        · rw [receive_of_ne hreset]
          rw [handleCommand_wdog, handleCommand_cycles]
          exact h
  rw [synchronizeTime_eq]
  split_ifs
  · have hdone := hfold m.arrivals.length (m.arrivals.headD [])
      { m.pace with arrivals := m.arrivals.tail } (Or.inl ⟨rfl, rfl⟩)
    generalize (m.arrivals.headD []).foldl (receive m.arrivals.length)
      { m.pace with arrivals := m.arrivals.tail } = m' at hdone ⊢
    simpa only [reschedule, Machine.cycles] using hdone
  · exact Or.inl ⟨rfl, rfl⟩

/-- A reset that the watchdog asks for in time ends in the future. -/
theorem pollIrqs_reset (hreset : m.checkIrq.1 = .reset)
    (hrecent : m.wdog.Recent m.cycles) (hintime : m.wdog.InTime m.cycles) :
    m.polled.cycles ≤ m.polled.pollIrqs.2.clock.nextNmiCycle := by
  obtain ⟨hover, hrst⟩ := m.checkIrq_reset_iff.mp hreset
  have hnmi : m.polled.pollIrqs.2.clock.nextNmiCycle =
      m.polled.wdog.lastCycles := by
    have hmode : ∀ tcsr : Byte, tcsr &&& ~~~Watchdog.OVF &&& Watchdog.RST =
        tcsr &&& Watchdog.RST := by decide +kernel
    simp only [pollIrqs, wdogCheckIrq, if_pos hover, hmode, if_pos hrst]
  obtain ⟨m₂, hm₂⟩ : ∃ m₂, m₂ = m.rearm.synchronizeTime := ⟨_, rfl⟩
  have hpolled : m.polled = m₂.updateTimes := by
    rw [hm₂]
    rfl
  have hcycles : m.polled.cycles = m₂.cycles := by
    rw [hpolled]
    exact m₂.updateTimes_cycles
  rw [hnmi, hcycles]
  rw [hpolled, updateTimes_wdog] at hover hrst ⊢
  rcases synchronizeTime_wdog m.rearm with ⟨hsame, htime⟩ | hstopped
  · rw [← hm₂] at hsame htime
    have hnow : m₂.clock.cycles = m.cycles := htime
    apply Watchdog.InTime.updateTime _ _ hover hrst
    · rw [hsame, hnow]
      exact hintime
    · rw [hsame, hnow]
      exact hrecent
  · rw [← hm₂] at hstopped
    have hstill : ¬ m₂.wdog.tcsr &&& Watchdog.TME ≠ 0 := by
      rw [hstopped]
      decide
    have hclear : m₂.wdog.tcsr &&& Watchdog.OVF = 0 := by
      rw [hstopped]
      decide
    simp only [wdogUpdateTime, if_neg hstill] at hover
    exact absurd hclear hover

end WatchdogReset

section Interrupts

variable {m : Machine}

theorem advances_enterIrq (selirq : ℕ) (m : Machine) :
    Advances 180 m (m.enterIrq selirq) := by
  have hfetched := advances_getWordCycles m.pc m
  simp only [enterIrq]
  generalize (m.getWordCycles m.pc).2 = m₁ at hfetched ⊢
  have hpushed := hfetched.trans
    (advances_setWordCycles (m₁.reg16 7 - 4 + 2) m₁.pc m₁)
  generalize m₁.setWordCycles (m₁.reg16 7 - 4 + 2) m₁.pc = m₂
    at hpushed ⊢
  have hflags := hpushed.trans
    (advances_setWordCycles (m₁.reg16 7 - 4) (m₂.ccr ++ m₂.ccr) m₂)
  generalize m₂.setWordCycles (m₁.reg16 7 - 4) (m₂.ccr ++ m₂.ccr) = m₃
    at hflags ⊢
  have hmasked : Advances 174 m { m₃.setReg16 7 (m₁.reg16 7 - 4) with
      ccr := (m₃.setReg16 7 (m₁.reg16 7 - 4)).ccr ||| 0x80 } :=
    hflags.still rfl rfl rfl rfl
  have hvector := hmasked.trans
    (advances_getWordCycles (BitVec.ofNat 16 (selirq * 2)) _)
  exact hvector.still rfl rfl rfl rfl

/-- A reset that ends in the future. -/
theorem advances_lateReset {cycles : ℕ} (hlate : m.cycles ≤ cycles) :
    Advances 46 m
      { m with clock := { m.clock with cycles := cycles } }.doReset := by
  have hbegun : Advances 0 m
      { m with clock := { m.clock with cycles := cycles } }.beginReset := by
    refine ⟨hlate, fun spare htimed => ?_⟩
    have hlimit := htimed.spare_lt
    refine ⟨htimed.synchronized.trans hlate, le_rfl, ?_, htimed.underflow⟩
    show cycles + spare < cycles + 2 ^ 31
    omega
  exact (hbegun.trans (advances_waitPeripherals _)).trans
    (advances_finishReset _)

/-- What a poll for interrupts takes. -/
theorem advances_checkIrq (hrecent : m.wdog.Recent m.cycles)
    (hintime : m.wdog.InTime m.cycles) : Advances 219 m m.checkIrq.2 := by
  have hrearm : Advances 0 m m.rearm := Advances.of_still rfl rfl rfl rfl
  have hpolled : Advances 39 m m.polled.pollIrqs.2 :=
    (hrearm.trans (advances_waitPeripherals _)).still
      (wdogCheckIrq_cycles _ _) rfl rfl rfl
  rw [checkIrq_snd]
  cases houtcome : m.checkIrq.1 with
  | none => exact hpolled.mono (by omega)
  | reset =>
      have hcycles : m.polled.pollIrqs.2.cycles = m.polled.cycles :=
        wdogCheckIrq_cycles _ _
      have hlate := pollIrqs_reset houtcome hrecent hintime
      rw [← hcycles] at hlate
      exact (hpolled.trans (advances_lateReset hlate)).mono (by omega)
  | taken vector => exact hpolled.trans (advances_enterIrq vector _)

theorem advances_stopTime (m : Machine) : Advances 0 m m.stopTime := by
  unfold stopTime
  split_ifs <;> exact Advances.of_still rfl rfl rfl rfl

theorem advances_contTime (m : Machine) : Advances 0 m m.contTime := by
  unfold contTime
  split_ifs <;> exact Advances.of_still rfl rfl rfl rfl

/-- Leaving standby takes its time before the timer is reset. -/
theorem advances_wakeUp (m : Machine) : Advances 0 m m.wakeUp := by
  unfold wakeUp
  split_ifs
  · have hlater : m.cycles ≤ addToCycle m.cycles m.standbyCycles := by
      rw [addToCycle, ← Nat.cast_add, uint64_natCast]
      exact Nat.le_add_right _ _
    refine ⟨hlater, fun spare htimed => ?_⟩
    have hlimit := htimed.spare_lt
    refine ⟨htimed.synchronized.trans hlater, le_rfl, ?_, htimed.underflow⟩
    show addToCycle m.cycles m.standbyCycles + spare <
      addToCycle m.cycles m.standbyCycles + 2 ^ 31
    omega
  · exact Advances.of_still rfl rfl rfl rfl

theorem advances_atLabel (oldpc : Word) (exit : Exit) (m : Machine) :
    Advances 0 m (m.atLabel oldpc exit) := by
  unfold atLabel
  cases exit with
  | trap =>
      simp only
      split_ifs <;> exact Advances.of_still rfl rfl rfl rfl
  | fault => exact Advances.of_still rfl rfl rfl rfl
  | illOpc => exact Advances.of_still rfl rfl rfl rfl

end Interrupts

section Sleep

variable {m m' : Machine}

theorem getWord_clock {addr : Word} (hplain : m.isDiv addr.toNat = false) :
    (m.getWord addr).2.clock = m.clock := by
  have hmemory : ¬ m.isDiv addr.toNat = true := by simp [hplain]
  unfold getWord
  by_cases heven : addr &&& 1 = 0
  · rw [if_pos ⟨heven, hmemory⟩]
  · rw [if_neg fun hboth => heven hboth.1, getWordDiv]
    simp only [if_pos heven]
    rfl

/-- What SLEEP does before the processor sleeps. -/
theorem endsWith_sleep (m : Machine) :
    EndsWith (fun slept m' => slept = true →
      m.instruction = some .sleep ∧
        m' = { (m.getWordCycles m.pc).2.setPc
          ((m.getWordCycles m.pc).2.pc + 2) with sleeping := true })
      executeInstruction m := by
  have hfetched : EndsWith (fun opc m₁ => opc = (m.getWordCycles m.pc).1 ∧
      m₁ = (m.getWordCycles m.pc).2.setPc
        ((m.getWordCycles m.pc).2.pc + 2)) getOpcode m := by
    apply endsWith_leaveIf_bind
    intro _
    apply endsWith_act_bind
    apply endsWith_change_bind
    exact endsWith_pure ⟨rfl, rfl⟩
  refine hfetched.bind ?_
  rintro _ _ ⟨rfl, rfl⟩
  cases hdecode : Mnemonic.decode
      ((m.getWordCycles m.pc).1 >>> 8).toNat with
  | none =>
      apply endsWith_leaveIf_bind
      intro hlegal
      cases hlegal
  | some mnemonic =>
      by_cases hsleep : mnemonic = .sleep
      · subst hsleep
        apply endsWith_change_bind
        exact endsWith_pure fun _ => ⟨hdecode, rfl⟩
      · refine EndsWith.bind (Q := fun _ _ => True) (fun _ _ _ => trivial) ?_
        intro _ m' _
        exact endsWith_pure fun hslept =>
          absurd (of_decide_eq_true hslept) hsleep

end Sleep

end Machine

namespace Cpu

open Machine

variable {cpu : Cpu}

/-- The machine with which the step calls `check_irq`. -/
def checked (cpu : Cpu) : Option Machine :=
  let m := cpu.machine
  match cpu.phase with
  | .top | .stopped => none
  | .ready =>
      if cpu.started.isSome then none
      else some (if m.dbSinglestep then m.markSinglestep else m)
  | .asleep => if m.dbTrap = 0 then some (skipToDeadline m) else none
  | .standby => if m.dbTrap = 0 then some m else none

/-- The machine behind the jump of the light sleep. -/
def woken (cpu : Cpu) : Machine :=
  if cpu.phase = .asleep ∧ cpu.machine.dbTrap = 0 then
    skipToDeadline cpu.machine
  else cpu.machine

/-- Nothing is late for the deadlines.  SLEEP is fetched from memory and its
fetch is over at the deadline.  While the light sleep goes on, no timer has
left an enabled compare value behind, and everything that may wake the
processor has been counted in time when the deadline comes.  Where interrupts
are looked for, the watchdog has been counted in time and asks for no reset
that is over.  The 16-bit timer has been counted in time. -/
structure Punctual (cpu : Cpu) : Prop where
  sleep : ∀ m ∈ cpu.started, m.instruction = some .sleep →
    m.inStandby = false →
      m.isDiv m.pc.toNat = false ∧ m.cycles + m.wordCycles m.pc ≤ m.deadline
  events : cpu.phase = .asleep → cpu.machine.dbTrap = 0 →
    cpu.machine.masked = false → cpu.machine.EventsAhead
  timers : cpu.phase = .asleep → cpu.machine.dbTrap = 0 →
    cpu.machine.masked = false ∨ cpu.machine.unmasks = true →
      cpu.woken.Recent
  watchdog : ∀ m ∈ cpu.checked,
    m.wdog.Recent m.cycles ∧ m.wdog.InTime m.cycles
  update : cpu.woken.cycles + 2 ^ 20 <
    cpu.woken.t16.myLastCycles + 2 ^ 31

section Steps

theorem woken_of_awake (hphase : cpu.phase ≠ .asleep) :
    cpu.woken = cpu.machine :=
  if_neg fun hasleep => hphase hasleep.1

theorem advances_halt (oldpc : Word) (m : Machine) :
    Advances 0 m (halt oldpc m).machine :=
  advances_stopTime m

theorem advances_enter (cpu : Cpu) :
    Advances 0 cpu.machine cpu.enter.machine := by
  have hhalt : ∀ oldpc m, Advances 0 cpu.machine m →
      Advances 0 cpu.machine (halt oldpc m).machine :=
    fun oldpc m h => h.trans (advances_halt oldpc m)
  simp only [enter]
  split_ifs
  · exact hhalt _ _ (Advances.of_still rfl rfl rfl rfl)
  · exact hhalt _ _ (Advances.of_still rfl rfl rfl rfl)
  · exact Advances.of_still rfl rfl rfl rfl
  · exact hhalt _ _ (Advances.of_still rfl rfl rfl rfl)
  · exact hhalt _ _ (Advances.refl _)
  · exact Advances.refl _

theorem advances_execute (m : Machine) :
    Advances (2 ^ 19) m (execute m).machine := by
  have hrun := advances_executeInstruction m
  unfold execute
  generalize executeInstruction m = result at hrun ⊢
  obtain ⟨exit | slept, m'⟩ := result
  · exact (hrun.trans (advances_atLabel m.pc exit m')).trans
      (advances_halt _ _)
  · cases slept with
    | false => exact hrun
    | true =>
        simp only [fallAsleep]
        split_ifs
        · exact hrun.trans (advances_stopTime _)
        · exact hrun

theorem advances_pollIrq {m : Machine}
    (hwdog : m.wdog.Recent m.cycles ∧ m.wdog.InTime m.cycles) :
    Advances 219 m m.pollIrq := by
  unfold pollIrq
  split_ifs
  · have hmarked : Advances 0 m m.markSinglestep :=
      Advances.of_still rfl rfl rfl rfl
    have hchecked := hmarked.trans (advances_checkIrq hwdog.1 hwdog.2)
    unfold Machine.stepOverIrq
    split_ifs
    · exact hchecked.mono (by omega)
    · exact hchecked.still rfl rfl rfl rfl
  · exact advances_checkIrq hwdog.1 hwdog.2

theorem advances_doze (skip : Machine → Machine)
    {leave : Machine → Machine}
    (hleave : ∀ m, Advances 0 m (leave m)) (htrap : cpu.machine.dbTrap = 0)
    (hwdog : (skip cpu.machine).wdog.Recent (skip cpu.machine).cycles ∧
      (skip cpu.machine).wdog.InTime (skip cpu.machine).cycles) :
    Advances 219 (skip cpu.machine) (cpu.doze skip leave).machine := by
  have hwoken : ∀ m', Advances 219 (skip cpu.machine) m' →
      Advances 219 (skip cpu.machine) (leave m').wakeUp :=
    fun m' h => (h.trans (hleave m')).trans (advances_wakeUp _)
  have hchecked := advances_checkIrq hwdog.1 hwdog.2
  simp only [doze, htrap, ne_eq, not_true_eq_false, if_false]
  split_ifs
  · exact hchecked
  · exact hwoken _ hchecked

/-- The debugger ends a sleep without a look at the time. -/
theorem advances_doze_trapped (skip : Machine → Machine)
    {leave : Machine → Machine} (hleave : ∀ m, Advances 0 m (leave m))
    (htrap : cpu.machine.dbTrap ≠ 0) :
    Advances 0 cpu.machine (cpu.doze skip leave).machine := by
  have hback : Advances 0 cpu.machine
      { cpu.machine with pc := cpu.machine.pc - 2 } :=
    Advances.of_still rfl rfl rfl rfl
  simp only [doze, if_pos htrap]
  exact (hback.trans (hleave _)).trans (advances_wakeUp _)

/-- What a pass takes behind the jump of the light sleep. -/
theorem advances_step (hpunctual : cpu.Punctual) :
    Advances (2 ^ 20) cpu.woken cpu.step.machine := by
  cases hphase : cpu.phase with
  | top =>
      rw [woken_of_awake (by simp [hphase])]
      simp only [step, hphase]
      exact (advances_enter cpu).mono (by omega)
  | stopped =>
      rw [woken_of_awake (by simp [hphase])]
      simp only [step, hphase]
      split_ifs
      · exact (advances_contTime _).mono (by omega)
      · exact (advances_synchronizeTime _).mono (by norm_num)
  | ready =>
      rw [woken_of_awake (by simp [hphase])]
      cases hstart : cpu.started with
      | none =>
          rw [step_of_not_started hphase hstart]
          have hwdog := hpunctual.watchdog
            (if cpu.machine.dbSinglestep then cpu.machine.markSinglestep
              else cpu.machine) (by simp [checked, hphase, hstart])
          have hpolled : Advances 219 cpu.machine cpu.machine.pollIrq := by
            apply advances_pollIrq
            split_ifs at hwdog
            · exact hwdog
            · exact hwdog
          exact hpolled.mono (by norm_num)
      | some m =>
          rw [step_of_started hstart]
          have hfetch : Advances 0 cpu.machine m := by
            rcases eq_of_started hstart with rfl | rfl
            · exact Advances.of_still rfl rfl rfl rfl
            · exact Advances.refl _
          exact (hfetch.trans (advances_execute m)).mono (by norm_num)
  | asleep =>
      simp only [step, hphase]
      by_cases htrap : cpu.machine.dbTrap = 0
      · have hwdog := hpunctual.watchdog (skipToDeadline cpu.machine)
          (by simp [checked, hphase, htrap])
        rw [woken, if_pos ⟨hphase, htrap⟩]
        have hleave : ∀ m : Machine, Advances 0 m (id m) := Advances.refl
        exact (advances_doze skipToDeadline hleave htrap hwdog).mono
          (by norm_num)
      · rw [woken, if_neg fun hboth => htrap hboth.2]
        have hleave : ∀ m : Machine, Advances 0 m (id m) := Advances.refl
        exact (advances_doze_trapped skipToDeadline hleave htrap).mono
          (by omega)
  | standby =>
      rw [woken_of_awake (by simp [hphase])]
      simp only [step, hphase]
      by_cases htrap : cpu.machine.dbTrap = 0
      · have hwdog := hpunctual.watchdog cpu.machine
          (by simp [checked, hphase, htrap])
        exact (advances_doze id advances_contTime htrap hwdog).mono
          (by norm_num)
      · exact (advances_doze_trapped id advances_contTime htrap).mono
          (by omega)

end Steps

section Runs

/-- How a pass ends in the light sleep: SLEEP has just been executed, or no
interrupt was found and the sleep goes on. -/
theorem asleep_of_step (hasleep : cpu.step.phase = .asleep) :
    (∃ m ∈ cpu.started, m.instruction = some .sleep ∧
      m.inStandby = false ∧
      cpu.step.machine = { (m.getWordCycles m.pc).2.setPc
        ((m.getWordCycles m.pc).2.pc + 2) with sleeping := true }) ∨
    (cpu.phase = .asleep ∧ cpu.machine.dbTrap = 0 ∧
      (skipToDeadline cpu.machine).checkIrq.1 = .none ∧
      (skipToDeadline cpu.machine).checkIrq.2.sleeping = true ∧
      cpu.step.machine = (skipToDeadline cpu.machine).checkIrq.2) := by
  cases hphase : cpu.phase with
  | top =>
      simp only [step, hphase, enter, halt] at hasleep
      split_ifs at hasleep
  | stopped =>
      simp only [step, hphase] at hasleep
      split_ifs at hasleep
  | standby =>
      simp only [step, hphase, doze] at hasleep
      split_ifs at hasleep
  | asleep =>
      right
      simp only [step, hphase, doze] at hasleep ⊢
      split_ifs at hasleep ⊢ with htrap hdozing
      exact ⟨trivial, of_not_not htrap, hdozing.1, hdozing.2, rfl⟩
  | ready =>
      left
      cases hstart : cpu.started with
      | none =>
          rw [step_of_not_started hphase hstart] at hasleep
          cases hasleep
      | some m =>
          rw [step_of_started hstart] at hasleep ⊢
          refine ⟨m, rfl, ?_⟩
          have hends := endsWith_sleep m
          unfold EndsWith at hends
          rcases hrun : executeInstruction m with ⟨exit | slept, m'⟩
          · simp only [execute, hrun, halt] at hasleep
            cases hasleep
          · cases slept with
            | false =>
                simp only [execute, hrun] at hasleep
                cases hasleep
            | true =>
                obtain ⟨hsleep, hdone⟩ := hends true m' hrun rfl
                have hstandby : m'.inStandby = m.inStandby := by
                  obtain ⟨_, _, _, _, _, _, _, _, _, hread⟩ :=
                    getWordCycles_effect m.pc m
                  rw [hdone, hread]
                  rfl
                simp only [execute, hrun, fallAsleep] at hasleep ⊢
                split_ifs at hasleep ⊢ with hdeep
                refine ⟨hsleep, ?_, hdone⟩
                rw [← hstandby]
                simpa using hdeep

/-- What holds between the passes of a run in which nothing is late. -/
structure OnTime (cpu : Cpu) : Prop where
  timed : cpu.machine.Timed 0
  scheduled : cpu.machine.Scheduled
  sleep : cpu.phase = .asleep → cpu.machine.dbTrap = 0 →
    (cpu.machine.masked = false → cpu.machine.EventsAhead) →
      cpu.machine.cycles ≤ cpu.machine.deadline

/-- The deadline does not move under the fetch of SLEEP. -/
theorem deadline_ahead_of_sleep {m m' : Machine}
    (hplain : m.isDiv m.pc.toNat = false)
    (hahead : m.cycles + m.wordCycles m.pc ≤ m.deadline)
    (hdone : m' = { (m.getWordCycles m.pc).2.setPc
      ((m.getWordCycles m.pc).2.pc + 2) with sleeping := true }) :
    m'.cycles ≤ m'.deadline := by
  have hclock : m'.clock = (m.addCycles (m.wordCycles m.pc)).clock := by
    rw [hdone]
    exact getWord_clock hplain
  have hccr : m'.ccr = m.ccr := by
    obtain ⟨_, _, _, _, _, _, _, _, _, hread⟩ := getWordCycles_effect m.pc m
    rw [hdone, hread]
    rfl
  have hdeadline : m'.deadline = m.deadline := by
    simp only [deadline, masked, hclock, hccr]
    rfl
  rw [hdeadline, Machine.cycles, hclock]
  exact hahead

/-- A light sleep that goes on has its deadline ahead. -/
theorem deadline_ahead_of_asleep (htimed : cpu.OnTime)
    (hpunctual : cpu.Punctual) (hasleep : cpu.step.phase = .asleep)
    (hevents : cpu.step.machine.masked = false →
      cpu.step.machine.EventsAhead) :
    cpu.step.machine.cycles ≤ cpu.step.machine.deadline := by
  rcases asleep_of_step hasleep with
    ⟨m, hstart, hsleep, hstandby, hdone⟩ |
    ⟨hphase, htrap, houtcome, hsleeping, hdone⟩
  · obtain ⟨hplain, hahead⟩ := hpunctual.sleep m hstart hsleep hstandby
    exact deadline_ahead_of_sleep hplain hahead hdone
  · have hwoken : cpu.woken = skipToDeadline cpu.machine :=
      if_pos ⟨hphase, htrap⟩
    have hwdog := hpunctual.watchdog (skipToDeadline cpu.machine)
      (by simp [checked, hphase, htrap])
    have htimers := hpunctual.timers hphase htrap
    rw [hwoken] at htimers
    have hscheduled : (skipToDeadline cpu.machine).Scheduled :=
      htimed.scheduled.congr rfl rfl
    rw [hdone] at hevents ⊢
    exact checkIrq_ahead houtcome hsleeping hscheduled hwdog.1 htimers
      hevents

/-- The jump of the light sleep goes forward. -/
theorem OnTime.woken (htimed : cpu.OnTime) (hpunctual : cpu.Punctual) :
    cpu.machine.cycles ≤ cpu.woken.cycles ∧ cpu.woken.Timed (2 ^ 20) := by
  have hroom := hpunctual.update
  have hlater : cpu.machine.cycles ≤ cpu.woken.cycles := by
    unfold Cpu.woken
    split_ifs with hboth
    · exact htimed.sleep hboth.1 hboth.2
        (hpunctual.events hboth.1 hboth.2)
    · exact le_rfl
  have hkept : cpu.woken.lastcycles = cpu.machine.lastcycles ∧
      cpu.woken.t16 = cpu.machine.t16 ∧
      cpu.woken.underflow = cpu.machine.underflow := by
    unfold Cpu.woken
    split_ifs
    · exact ⟨rfl, rfl, rfl⟩
    · exact ⟨rfl, rfl, rfl⟩
  obtain ⟨hlast, htimer, hunderflow⟩ := hkept
  refine ⟨hlater, ?_, ?_, hroom, ?_⟩
  · rw [hlast]
    exact htimed.timed.synchronized.trans hlater
  · rw [htimer]
    exact htimed.timed.timer.trans hlater
  · rw [hunderflow]
    exact htimed.timed.underflow

/-- A pass in which nothing is late. -/
theorem OnTime.step (htimed : cpu.OnTime) (hpunctual : cpu.Punctual) :
    cpu.machine.cycles ≤ cpu.step.machine.cycles ∧ cpu.step.OnTime := by
  obtain ⟨hlater, hwoken⟩ := htimed.woken hpunctual
  have hstep := advances_step hpunctual
  refine ⟨hlater.trans hstep.cycles, hstep.timed 0 hwoken, ?_, ?_⟩
  · exact scheduled_invariant.step htimed.scheduled
  · intro hasleep _ hevents
    exact deadline_ahead_of_asleep htimed hpunctual hasleep hevents

variable (rom : ℕ → Option Byte) (input : List (Option Byte))
  (arrivals : List (List Command)) (hostTimes : List (BitVec 64))

theorem scheduled_powerOn :
    (powerOn rom input arrivals hostTimes).Scheduled := by
  have hstopped : (powerOn rom input arrivals hostTimes).t8.shift = 31 := by
    simp [powerOn, Timer8.shift, Timer8.freq]
  exact ⟨by simp [powerOn], fun _ hrunning => absurd hstopped hrunning⟩

theorem timed_powerOn {spare : ℕ} (hspare : spare < 2 ^ 31) :
    (powerOn rom input arrivals hostTimes).Timed spare :=
  ⟨le_rfl, le_rfl, Nat.add_lt_add_left hspare _, rfl⟩

theorem onTime_start :
    (start (powerOn rom input arrivals hostTimes)).OnTime := by
  have hfresh : Advances 0 (powerOn rom input arrivals hostTimes)
      { powerOn rom input arrivals hostTimes with dbSinglestepPc := 0xffff } :=
    Advances.of_still rfl rfl rfl rfl
  have hreset := hfresh.trans (advances_doReset _)
  refine ⟨?_, ?_, ?_⟩
  · exact hreset.timed 0
      (timed_powerOn rom input arrivals hostTimes (by norm_num))
  · exact scheduled_invariant.run
      (scheduled_powerOn rom input arrivals hostTimes) 0
  · intro hasleep
    cases hasleep

variable {rom input arrivals hostTimes}

theorem run_onTime (n : ℕ) (hpunctual : ∀ k < n,
      (run (powerOn rom input arrivals hostTimes) k).Punctual) :
    (run (powerOn rom input arrivals hostTimes) n).OnTime := by
  induction n with
  | zero => exact onTime_start rom input arrivals hostTimes
  | succ n ih =>
      have hbefore := ih fun k hk => hpunctual k (by omega)
      rw [run_succ]
      exact (hbefore.step (hpunctual n (by omega))).2

end Runs

/-- In a run in which nothing is late, the time goes on with every step, and
no elapsed time underflows. -/
theorem time_advances (rom : ℕ → Option Byte) (input : List (Option Byte))
    (arrivals : List (List Command)) (hostTimes : List (BitVec 64)) (n : ℕ)
    (hpunctual : ∀ k < n,
      (run (powerOn rom input arrivals hostTimes) k).Punctual) :
    (∀ k < n, (run (powerOn rom input arrivals hostTimes) k).machine.cycles ≤
      (run (powerOn rom input arrivals hostTimes) (k + 1)).machine.cycles) ∧
    (run (powerOn rom input arrivals hostTimes) n).machine.underflow =
      false := by
  refine ⟨?_, (run_onTime n hpunctual).timed.underflow⟩
  intro k hk
  have hbefore := run_onTime k fun j hj => hpunctual j (by omega)
  rw [run_succ]
  exact (hbefore.step (hpunctual k hk)).1

theorem punctual_iff : cpu.Punctual ↔
    (∀ m ∈ cpu.started, m.instruction = some .sleep → m.inStandby = false →
      m.isDiv m.pc.toNat = false ∧
        m.cycles + m.wordCycles m.pc ≤ m.deadline) ∧
    (cpu.phase = .asleep → cpu.machine.dbTrap = 0 →
      cpu.machine.masked = false → cpu.machine.EventsAhead) ∧
    (cpu.phase = .asleep → cpu.machine.dbTrap = 0 →
      cpu.machine.masked = false ∨ cpu.machine.unmasks = true →
        cpu.woken.Recent) ∧
    (∀ m ∈ cpu.checked, m.wdog.Recent m.cycles ∧ m.wdog.InTime m.cycles) ∧
    cpu.woken.cycles + 2 ^ 20 < cpu.woken.t16.myLastCycles + 2 ^ 31 :=
  ⟨fun h => ⟨h.sleep, h.events, h.timers, h.watchdog, h.update⟩,
    fun ⟨hsleep, hevents, htimers, hwatchdog, hupdate⟩ =>
      ⟨hsleep, hevents, htimers, hwatchdog, hupdate⟩⟩

instance (cpu : Cpu) : Decidable cpu.Punctual :=
  decidable_of_iff' _ punctual_iff

/-- The guest sleeps until the run button is pressed. -/
def sleepingRom : ℕ → Option Byte := fun addr =>
  ([0x00, 0x10, 0, 0, 0, 0, 0, 0, 0x00, 0x20, 0, 0, 0, 0, 0, 0,
    0xf8, 0x01, 0x38, 0xc7, 0x79, 0x07, 0xff, 0x7e, 0x06, 0x7f, 0x00,
    0x00, 0x01, 0x80, 0x40, 0xfc, 0x56, 0x70] : List Byte)[addr]?

theorem time_advances_asleep :
    (run (powerOn sleepingRom [] [[.button .run true]] []) 14).phase =
      .asleep ∧
    (∀ k < 24,
      (run (powerOn sleepingRom [] [[.button .run true]] [])
        k).machine.cycles ≤
      (run (powerOn sleepingRom [] [[.button .run true]] [])
        (k + 1)).machine.cycles) ∧
    (run (powerOn sleepingRom [] [[.button .run true]] [])
      24).machine.underflow = false := by
  refine ⟨by decide +kernel, time_advances _ _ _ _ 24 ?_⟩
  decide +kernel

/-- The guest starts with SLEEP. -/
def sleepRom : ℕ → Option Byte := fun addr =>
  ([0x00, 0x10, 0, 0, 0, 0, 0, 0, 0, 0, 0, 0, 0, 0, 0, 0, 0x01, 0x80] :
    List Byte)[addr]?

/-- No interrupt is looked for before the first instruction, so the deadline
of its sleep is still that of power-on. -/
theorem time_runs_backwards :
    ¬ ∀ n, (run (powerOn sleepRom [] [] []) n).machine.cycles ≤
      (run (powerOn sleepRom [] [] []) (n + 1)).machine.cycles := by
  intro hadvances
  exact absurd (hadvances 2) (by decide +kernel)

end Cpu

end BrickEmu
