import BrickEmu.RunCpu
import BrickEmu.Synchronization
import Mathlib.Data.BitVec

/-!
# Real-time pacing

`synchronize_time` turns the cycles since its last call into microseconds and
moves both counters by whole microseconds only.  `stop_time` and `cont_time`
make the times relative to the clock of the host and absolute again.  The law
between the counters holds in every run, with any nesting, and so the paced
time depends only on the cycles and on the frozen time.
-/

namespace BrickEmu

def CYCLES_PER_USEC : ℕ := 16

def SLOW_DOWN : ℕ := 1

/-- The counters behind the pacing. -/
structure Pacing where
  cycles : ℕ
  lastcycles : ℕ
  lastusecs : BitVec 64
  nextsleep : BitVec 64
  startusecs : BitVec 64
  stopped : ℤ
  deriving DecidableEq

/-- What the pacing goes through.  `pace` and `reschedule` are the begin and
the end of `synchronize_time`. -/
inductive PaceStep where
  | pace
  | reschedule
  | stop (now : BitVec 64)
  | cont (now : BitVec 64)
  | advance (n : ℕ)
  deriving DecidableEq

/-- No cycle is executed. -/
def PaceStep.still : PaceStep → Bool
  | .advance _ => false
  | _ => true

namespace Pacing

/-- The part of `periph_init` that sets the counters. -/
def periphInit (now : BitVec 64) : Pacing where
  cycles := 0
  lastcycles := 0
  lastusecs := now
  nextsleep := now
  startusecs := now
  stopped := 0

def pace (s : Pacing) : Pacing :=
  let usecs := uint64 ((s.cycles : ℤ) - s.lastcycles) / CYCLES_PER_USEC
  { s with
    lastusecs := s.lastusecs + BitVec.ofNat 64 (usecs * SLOW_DOWN)
    lastcycles := s.lastcycles + usecs * CYCLES_PER_USEC }

def looks (s : Pacing) : Bool :=
  s.nextsleep < s.lastusecs ∨ s.stopped ≠ 0

def reschedule (s : Pacing) : Pacing :=
  { s with nextsleep := s.lastusecs + 1000 }

def stopTime (now : BitVec 64) (s : Pacing) : Pacing :=
  if s.stopped = 0 then
    { s with
      stopped := s.stopped + 1
      lastusecs := s.lastusecs - now
      startusecs := s.startusecs - now }
  else { s with stopped := s.stopped + 1 }

def contTime (now : BitVec 64) (s : Pacing) : Pacing :=
  if s.stopped - 1 = 0 then
    { s with
      stopped := s.stopped - 1
      lastusecs := s.lastusecs + now
      startusecs := s.startusecs + now
      nextsleep := s.lastusecs + now }
  else { s with stopped := s.stopped - 1 }

def step (s : Pacing) : PaceStep → Pacing
  | .pace => s.pace
  | .reschedule => s.reschedule
  | .stop now => s.stopTime now
  | .cont now => s.contTime now
  | .advance n => { s with cycles := s.cycles + n }

def run (steps : List PaceStep) (s : Pacing) : Pacing :=
  steps.foldl step s

/-- `synchronize_time`, where `inner` is what the messages it handles do: a
reset synchronizes and takes cycles, and others may stop the time. -/
def synchronizeTime (inner : List PaceStep) (s : Pacing) : Pacing :=
  if s.pace.looks then (s.pace.run inner).reschedule else s.pace

/-- The law between the two counters. -/
structure Law (s : Pacing) : Prop where
  usecs : s.lastusecs = s.startusecs +
    BitVec.ofNat 64 (s.lastcycles / CYCLES_PER_USEC * SLOW_DOWN)
  whole : CYCLES_PER_USEC ∣ s.lastcycles
  behind : s.lastcycles ≤ s.cycles

variable {s : Pacing}

theorem law_periphInit (now : BitVec 64) : (periphInit now).Law where
  usecs := by
    simp only [periphInit, Nat.zero_div, Nat.zero_mul]
    exact (BitVec.add_zero now).symm
  whole := dvd_zero _
  behind := le_rfl

/-- The elapsed microseconds, where nothing underflows. -/
theorem Law.pace_eq (h : s.Law) :
    s.pace = { s with
      lastusecs := s.lastusecs + BitVec.ofNat 64
        ((s.cycles - s.lastcycles) / CYCLES_PER_USEC * SLOW_DOWN)
      lastcycles := s.lastcycles +
        (s.cycles - s.lastcycles) / CYCLES_PER_USEC * CYCLES_PER_USEC } := by
  rw [pace, uint64_sub_of_le h.behind]

theorem Law.pace (h : s.Law) : s.pace.Law := by
  obtain ⟨k, hk⟩ := h.whole
  obtain ⟨usecs, husecs⟩ : ∃ usecs,
      usecs = (s.cycles - s.lastcycles) / CYCLES_PER_USEC := ⟨_, rfl⟩
  have hpos : 0 < CYCLES_PER_USEC := by decide
  have hle : usecs * CYCLES_PER_USEC ≤ s.cycles - s.lastcycles := by
    rw [husecs]
    exact Nat.div_mul_le_self _ _
  have hbehind := h.behind
  rw [h.pace_eq, ← husecs]
  refine ⟨?_, ?_, ?_⟩
  · have hsum : (s.lastcycles + usecs * CYCLES_PER_USEC) / CYCLES_PER_USEC =
        s.lastcycles / CYCLES_PER_USEC + usecs :=
      Nat.add_mul_div_right _ _ hpos
    simp only [hsum, Nat.add_mul]
    rw [h.usecs, BitVec.ofNat_add, BitVec.add_assoc]
  · exact Nat.dvd_add h.whole (Nat.dvd_mul_left _ _)
  · simp only
    omega

theorem Law.step (h : s.Law) (event : PaceStep) : (s.step event).Law := by
  cases event with
  | pace => exact h.pace
  | reschedule =>
      simp only [Pacing.step, reschedule]
      exact ⟨h.usecs, h.whole, h.behind⟩
  | stop now =>
      simp only [Pacing.step, stopTime]
      split
      · refine ⟨?_, h.whole, h.behind⟩
        simp only
        rw [h.usecs]
        exact add_sub_right_comm _ _ _
      · exact ⟨h.usecs, h.whole, h.behind⟩
  | cont now =>
      simp only [Pacing.step, contTime]
      split
      · refine ⟨?_, h.whole, h.behind⟩
        simp only
        rw [h.usecs]
        exact add_right_comm _ _ _
      · exact ⟨h.usecs, h.whole, h.behind⟩
  | advance n =>
      exact ⟨h.usecs, h.whole, h.behind.trans (Nat.le_add_right _ _)⟩

theorem Law.run (h : s.Law) (steps : List PaceStep) : (s.run steps).Law := by
  induction steps generalizing s with
  | nil => exact h
  | cons event steps ih => exact ih (h.step event)

/-! ## The frozen time -/

/-- The depth of nested stops and the time between outermost stops and their
ends. -/
def freeze (frozen : ℤ × BitVec 64) : PaceStep → ℤ × BitVec 64
  | .stop now =>
      (frozen.1 + 1, if frozen.1 = 0 then frozen.2 - now else frozen.2)
  | .cont now =>
      (frozen.1 - 1, if frozen.1 - 1 = 0 then frozen.2 + now else frozen.2)
  | _ => frozen

def frozenTime (steps : List PaceStep) : BitVec 64 :=
  (steps.foldl freeze (0, 0)).2

/-- The start of the simulation moves by the frozen time. -/
theorem run_startusecs (steps : List PaceStep) :
    ∀ {s : Pacing} {frozen : ℤ × BitVec 64} {start : BitVec 64},
      s.stopped = frozen.1 → s.startusecs = start + frozen.2 →
      (s.run steps).startusecs = start + (steps.foldl freeze frozen).2 := by
  induction steps with
  | nil => exact fun _ h => h
  | cons event steps ih =>
      intro s frozen start hstopped hstart
      apply ih
      · cases event with
        | stop now =>
            simp only [step, stopTime, freeze]
            split <;> simp only [hstopped]
        | cont now =>
            simp only [step, contTime, freeze]
            split <;> simp only [hstopped]
        | pace => simpa only [step, Pacing.pace, freeze] using hstopped
        | reschedule =>
            simpa only [step, Pacing.reschedule, freeze] using hstopped
        | advance n => exact hstopped
      · cases event with
        | stop now =>
            simp only [step, stopTime, freeze, hstopped]
            split
            · simp only [hstart]
              exact add_sub_assoc _ _ _
            · exact hstart
        | cont now =>
            simp only [step, contTime, freeze, hstopped]
            split
            · simp only [hstart]
              exact add_assoc _ _ _
            · exact hstart
        | pace => simpa only [step, Pacing.pace, freeze] using hstart
        | reschedule =>
            simpa only [step, Pacing.reschedule, freeze] using hstart
        | advance n => exact hstart

/-- Less than a microsecond is left over. -/
def Close (s : Pacing) : Prop :=
  s.lastcycles ≤ s.cycles ∧ s.cycles - s.lastcycles < CYCLES_PER_USEC

theorem Law.close_pace (h : s.Law) : s.pace.Close := by
  have hpos : 0 < CYCLES_PER_USEC := by decide
  have hlaw := h.pace
  refine ⟨hlaw.behind, ?_⟩
  have hmod := Nat.mod_lt (s.cycles - s.lastcycles) hpos
  have hdiv := Nat.div_add_mod' (s.cycles - s.lastcycles) CYCLES_PER_USEC
  have hbehind := h.behind
  rw [h.pace_eq]
  simp only
  omega

theorem Close.step (h : s.Close) {event : PaceStep}
    (hstill : event.still = true) : (s.step event).Close := by
  cases event with
  | pace =>
      obtain ⟨hle, hlt⟩ := h
      have hzero : (s.cycles - s.lastcycles) / CYCLES_PER_USEC = 0 :=
        Nat.div_eq_of_lt hlt
      simp only [Pacing.step, pace, uint64_sub_of_le hle, hzero, Nat.zero_mul,
        Nat.add_zero]
      exact ⟨hle, hlt⟩
  | reschedule =>
      simp only [Pacing.step, reschedule]
      exact ⟨h.1, h.2⟩
  | stop now =>
      simp only [Pacing.step, stopTime]
      split <;> exact h
  | cont now =>
      simp only [Pacing.step, contTime]
      split <;> exact h
  | advance n => cases hstill

theorem Close.run (h : s.Close) {steps : List PaceStep}
    (hstill : ∀ event ∈ steps, event.still = true) : (s.run steps).Close := by
  induction steps generalizing s with
  | nil => exact h
  | cons event steps ih =>
      obtain ⟨hfirst, hrest⟩ := List.forall_mem_cons.mp hstill
      exact ih (h.step hfirst) hrest

theorem run_append (steps steps' : List PaceStep) (s : Pacing) :
    s.run (steps ++ steps') = (s.run steps).run steps' :=
  List.foldl_append

/-- `synchronize_time` is a run of its parts. -/
theorem synchronizeTime_eq_run (inner : List PaceStep) (s : Pacing) :
    s.synchronizeTime inner =
      s.run (if s.pace.looks then .pace :: (inner ++ [.reschedule])
        else [.pace]) := by
  rw [synchronizeTime]
  split
  · simp only [run, List.foldl_cons, List.foldl_append, List.foldl_nil, step]
  · rfl

theorem Law.close_synchronizeTime (h : s.Law) {inner : List PaceStep}
    (hstill : ∀ event ∈ inner, event.still = true) :
    (s.synchronizeTime inner).Close := by
  have hpace := h.close_pace
  rw [synchronizeTime]
  split
  · have hclose := hpace.run hstill
    simp only [reschedule]
    exact ⟨hclose.1, hclose.2⟩
  · exact hpace

/-- The parts of `synchronize_time` itself freeze nothing. -/
theorem foldl_freeze_synchronize (frozen : ℤ × BitVec 64)
    (inner : List PaceStep) (looks : Bool) :
    (if looks then .pace :: (inner ++ [.reschedule]) else [.pace]).foldl
        freeze frozen =
      (if looks then inner else []).foldl freeze frozen := by
  cases looks with
  | true =>
      simp only [if_true, List.foldl_cons, List.foldl_append, List.foldl_nil,
        freeze]
  | false => rfl

/-- With less than a microsecond left over the law is about the cycles. -/
theorem Law.usecs_of_close (h : s.Law) (hclose : s.Close) :
    s.lastusecs = s.startusecs +
      BitVec.ofNat 64 (s.cycles / CYCLES_PER_USEC * SLOW_DOWN) := by
  obtain ⟨k, hk⟩ := h.whole
  obtain ⟨hle, hlt⟩ := hclose
  have hpos : 0 < CYCLES_PER_USEC := by decide
  have hlast : s.lastcycles / CYCLES_PER_USEC = k := by
    rw [hk, Nat.mul_div_cancel_left _ hpos]
  have hcycles : s.cycles / CYCLES_PER_USEC = k := by
    apply Nat.div_eq_of_lt_le
    · rw [Nat.mul_comm, ← hk]
      exact hle
    · rw [Nat.succ_mul, Nat.mul_comm, ← hk]
      omega
  rw [hcycles, ← hlast]
  exact h.usecs

/-- In every run from `periph_init`, whatever the nesting and the times: the
law between the counters, and after `synchronize_time` without a reset the
rest below a microsecond and the paced time. -/
theorem pacing_law (now : BitVec 64) (steps : List PaceStep) :
    let s := (periphInit now).run steps
    (s.stopped = 0 → s.lastusecs = s.startusecs +
        BitVec.ofNat 64 (s.lastcycles / CYCLES_PER_USEC * SLOW_DOWN)) ∧
      CYCLES_PER_USEC ∣ s.lastcycles ∧
      ∀ inner, (∀ event ∈ inner, event.still = true) →
        let s' := s.synchronizeTime inner
        s'.Close ∧ (s'.stopped = 0 → s'.lastusecs = now +
          frozenTime (steps ++ if s.pace.looks then inner else []) +
          BitVec.ofNat 64 (s'.cycles / CYCLES_PER_USEC * SLOW_DOWN)) := by
  intro s
  have hlaw : s.Law := (law_periphInit now).run steps
  refine ⟨fun _ => hlaw.usecs, hlaw.whole, fun inner hstill => ?_⟩
  intro s'
  have hclose : s'.Close := hlaw.close_synchronizeTime hstill
  refine ⟨hclose, fun _ => ?_⟩
  obtain ⟨parts, hparts⟩ : ∃ parts : List PaceStep, parts =
    if s.pace.looks then .pace :: (inner ++ [.reschedule]) else [.pace] :=
      ⟨_, rfl⟩
  have hrun : s' = (periphInit now).run (steps ++ parts) := by
    rw [run_append, hparts]
    exact synchronizeTime_eq_run inner s
  have hlaw' : s'.Law := by
    rw [hrun]
    exact (law_periphInit now).run _
  have hstart : s'.startusecs = now +
      frozenTime (steps ++ if s.pace.looks then inner else []) := by
    have hdepth : (periphInit now).stopped = ((0, 0) : ℤ × BitVec 64).1 := rfl
    have hzero : (periphInit now).startusecs =
        now + ((0, 0) : ℤ × BitVec 64).2 := by
      simp only [periphInit]
      exact (BitVec.add_zero now).symm
    rw [hrun, run_startusecs (steps ++ parts) hdepth hzero, frozenTime,
      List.foldl_append, List.foldl_append, hparts, foldl_freeze_synchronize]
  rw [hlaw'.usecs_of_close hclose, hstart]

end Pacing

/-! ## The machine -/

namespace Machine

open Pacing

/-- The counters of the machine; `startusecs` is not kept there. -/
def pacing (start : BitVec 64) (m : Machine) : Pacing where
  cycles := m.cycles
  lastcycles := m.lastcycles
  lastusecs := m.lastusecs
  nextsleep := m.nextsleep
  startusecs := start
  stopped := m.stopped

variable {m m' : Machine} (start : BitVec 64)

theorem pacing_congr (hcycles : m'.cycles = m.cycles)
    (hlast : m'.lastcycles = m.lastcycles)
    (husecs : m'.lastusecs = m.lastusecs)
    (hnext : m'.nextsleep = m.nextsleep) (hstopped : m'.stopped = m.stopped) :
    m'.pacing start = m.pacing start := by
  simp only [pacing, hcycles, hlast, husecs, hnext, hstopped]

theorem pacing_pace (m : Machine) :
    m.pace.pacing start = (m.pacing start).pace := by
  simp only [pacing, Machine.pace, Pacing.pace, CYCLES_PER_USEC, SLOW_DOWN,
    Nat.mul_one]
  rfl

theorem pacing_reschedule (m : Machine) :
    m.reschedule.pacing start = (m.pacing start).reschedule := by
  simp only [pacing, Machine.reschedule, Pacing.reschedule, Machine.cycles]

theorem pacing_looks (m : Machine) :
    m.looksAtInput = (m.pacing start).looks := by
  simp only [looksAtInput, Pacing.looks, pacing, ne_eq, Nat.cast_eq_zero]

/-- Where the time stops, the start becomes relative too. -/
theorem pacing_stopTime (m : Machine) :
    ∃ start', m.stopTime.pacing start' =
      (m.pacing start).stopTime (m.hostTimes.headD 0) := by
  rw [Machine.stopTime, Pacing.stopTime]
  by_cases hrunning : m.stopped = 0
  · have hzero : (m.pacing start).stopped = 0 := by
      simp only [pacing, hrunning, Nat.cast_zero]
    rw [if_pos hrunning, if_pos hzero]
    refine ⟨start - m.hostTimes.headD 0, ?_⟩
    simp only [pacing, Machine.cycles, hrunning]
    rfl
  · have hpos : (m.pacing start).stopped ≠ 0 := by
      simp only [pacing, ne_eq, Nat.cast_eq_zero]
      exact hrunning
    rw [if_neg hrunning, if_neg hpos]
    refine ⟨start, ?_⟩
    simp only [pacing, Machine.cycles]
    push_cast
    rfl

theorem pacing_contTime {m : Machine} (hstopped : 0 < m.stopped) :
    ∃ start', m.contTime.pacing start' =
      (m.pacing start).contTime (m.hostTimes.headD 0) := by
  rw [Machine.contTime, Pacing.contTime]
  by_cases hlast : m.stopped = 1
  · have hzero : (m.pacing start).stopped - 1 = 0 := by
      simp only [pacing, hlast, Nat.cast_one, sub_self]
    rw [if_pos hlast, if_pos hzero]
    refine ⟨start + m.hostTimes.headD 0, ?_⟩
    simp only [pacing, Machine.cycles, hlast]
    rfl
  · have hpos : (m.pacing start).stopped - 1 ≠ 0 := by
      simp only [pacing]
      omega
    rw [if_neg hlast, if_neg hpos]
    refine ⟨start, ?_⟩
    simp only [pacing, Machine.cycles, Nat.cast_sub hstopped, Nat.cast_one]

/-! ### What the messages do to the counters -/

theorem wdogUpdateTime_cycles (clock : Clock) (wdog : Watchdog) :
    (wdogUpdateTime clock wdog).2.cycles = clock.cycles := by
  simp only [wdogUpdateTime]
  split
  · exact wdogCheckNextCycle_cycles _ clock
  · rfl

theorem motorUpdateTime_cycles (clock : Clock) (motor : Motor) :
    (motorUpdateTime clock motor).2.1.cycles = clock.cycles := by
  simp only [motorUpdateTime]

theorem updateTimes_cycles (m : Machine) :
    m.updateTimes.cycles = m.cycles := by
  simp only [updateTimes, Machine.cycles, motorUpdateTime_cycles,
    wdogUpdateTime_cycles, adUpdateTime, adCheckNextCycle_cycles, t8UpdateTime,
    t8CheckNextCycle_cycles, updateT16, t16UpdateTime,
    t16CheckNextCycle_cycles, serUpdateTime, serCheckNextCycle_cycles]

theorem pacing_updateTimes (m : Machine) :
    m.updateTimes.pacing start = m.pacing start :=
  pacing_congr start m.updateTimes_cycles rfl rfl rfl rfl

theorem pacing_handleCommand (m : Machine) (command : Command) :
    (m.handleCommand command).pacing start = m.pacing start := by
  cases command with
  | button button pressed =>
      have hcycles : (btnReadFd button pressed m.clock m.buttons).2.cycles =
          m.clock.cycles := by
        simp only [btnReadFd]
        split_ifs
        · exact btnCheckNextCycle_cycles _ m.clock
        · rfl
        · exact btnCheckNextCycle_cycles _ m.clock
        · rfl
      exact pacing_congr start hcycles rfl rfl rfl rfl
  | poke addr val => exact debuggerWrite_apply (pacing start) rfl
  | setTrap addr kind => exact debuggerWrite_apply (pacing start) rfl
  | clearTrap addr kind => exact debuggerWrite_apply (pacing start) rfl
  | _ => rfl

/-- A reset takes a cycle and the time to fetch its vector. -/
theorem pacing_finishReset (m : Machine) :
    ∃ n, m.finishReset.pacing start = (m.pacing start).step (.advance n) := by
  obtain ⟨before, hbefore⟩ : ∃ before : Machine,
    before = { m.addCycles 1 with dbTrap := 0 } := ⟨_, rfl⟩
  have heffect := getWord_effect 0 (before.addCycles (before.wordCycles 0))
  refine ⟨1 + before.wordCycles 0, ?_⟩
  have hfinish : m.finishReset.pacing start =
      ((before.addCycles (before.wordCycles 0)).getWord 0).2.pacing start := by
    rw [hbefore]
    rfl
  obtain ⟨_, _, _, _, _, _, _, _, _, hread⟩ := heffect
  rw [hfinish, hread, hbefore]
  simp only [pacing, Pacing.step, Machine.cycles, addCycles, Nat.add_assoc]

/-- What one message does is a run of the pacing if `synchronize_time` is. -/
theorem pacing_receive {fuel : ℕ}
    (hsync : ∀ m : Machine, ∃ steps, (synchronizeFuel fuel m).pacing start =
      (m.pacing start).run steps) (m : Machine) (command : Command) :
    ∃ steps, (m.receive fuel command).pacing start =
      (m.pacing start).run steps := by
  by_cases hreset : command = .reset
  · subst hreset
    obtain ⟨steps, hsteps⟩ := hsync m.beginReset
    obtain ⟨n, hn⟩ := pacing_finishReset start
      (synchronizeFuel fuel m.beginReset).updateTimes
    refine ⟨steps ++ [.advance n], ?_⟩
    rw [run_append]
    exact hn.trans (congrArg (step · (.advance n))
      ((pacing_updateTimes start _).trans hsteps))
  · rw [receive_of_ne hreset]
    exact ⟨[], pacing_handleCommand start m command⟩

theorem pacing_receives {fuel : ℕ}
    (hsync : ∀ m : Machine, ∃ steps, (synchronizeFuel fuel m).pacing start =
      (m.pacing start).run steps) (commands : List Command) :
    ∀ m : Machine, ∃ steps, (commands.foldl (receive fuel) m).pacing start =
      (m.pacing start).run steps := by
  induction commands with
  | nil => exact fun m => ⟨[], rfl⟩
  | cons command commands ih =>
      intro m
      obtain ⟨steps, hsteps⟩ := pacing_receive start hsync m command
      obtain ⟨rest, hrest⟩ := ih (m.receive fuel command)
      refine ⟨steps ++ rest, ?_⟩
      rw [run_append, ← hsteps]
      exact hrest

/-- The machine's `synchronize_time` is that of the pacing, where the
messages are a run inside it. -/
theorem pacing_synchronizeFuel_succ {fuel : ℕ}
    (hsync : ∀ m : Machine, ∃ steps, (synchronizeFuel fuel m).pacing start =
      (m.pacing start).run steps) (m : Machine) :
    ∃ inner, (synchronizeFuel (fuel + 1) m).pacing start =
      (m.pacing start).synchronizeTime inner := by
  obtain ⟨inner, hinner⟩ := pacing_receives start hsync
    (m.arrivals.headD []) { m.pace with arrivals := m.arrivals.tail }
  have harrive : ({ m.pace with arrivals := m.arrivals.tail } :
      Machine).pacing start = (m.pacing start).pace := pacing_pace start m
  refine ⟨inner, ?_⟩
  rw [synchronizeFuel_succ, Pacing.synchronizeTime, pacing_looks start,
    pacing_pace]
  split
  · rw [pacing_reschedule, hinner, harrive]
  · exact pacing_pace start m

theorem pacing_synchronizeFuel (fuel : ℕ) :
    ∀ m : Machine, ∃ steps, (synchronizeFuel fuel m).pacing start =
      (m.pacing start).run steps := by
  induction fuel with
  | zero => exact fun m => ⟨[], rfl⟩
  | succ fuel ih =>
      intro m
      obtain ⟨inner, hinner⟩ := pacing_synchronizeFuel_succ start ih m
      exact ⟨_, hinner.trans (synchronizeTime_eq_run inner _)⟩

theorem pacing_synchronizeTime (m : Machine) :
    ∃ inner, m.synchronizeTime.pacing start =
      (m.pacing start).synchronizeTime inner :=
  pacing_synchronizeFuel_succ start (pacing_synchronizeFuel start _) m

/-- The machine starts as `periph_init` leaves it. -/
theorem pacing_powerOn (rom : ℕ → Option Byte) (input : List (Option Byte))
    (arrivals : List (List Command)) (hostTimes : List (BitVec 64)) :
    (powerOn rom input arrivals hostTimes).pacing (hostTimes.headD 0) =
      periphInit (hostTimes.headD 0) :=
  rfl

/-- The GUI resets the machine after 31 cycles. -/
def resetArriving : Machine :=
  { powerOn (fun _ => none) [] [[.reset]] [] with clock := ⟨31, 0, 0⟩ }

/-- A reset inside `synchronize_time` takes cycles that are left over. -/
theorem resetArriving_not_close :
    resetArriving.pacing 0 = (periphInit 0).run [.advance 31] ∧
      ¬(resetArriving.synchronizeTime.pacing 0).Close := by
  refine ⟨rfl, ?_⟩
  unfold Pacing.Close
  decide +kernel

end Machine

end BrickEmu
