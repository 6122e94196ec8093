import BrickEmu.Timer8Laziness
import BrickEmu.Timer8Pin

/-!
# The durations of the sound

Every cycle by which `last_cycles[0]` advances is handed to `sound_update`
once, in whatever pieces.  Durations are 32 bits wide and increments are
signed, so this holds as long as updates do not come too late.
-/

namespace BrickEmu

open Timer8

/-- The durations of all pieces. -/
def duration (sound : List (Byte × ℕ)) : ℕ :=
  (sound.map Prod.snd).sum

theorem duration_append (sound sound' : List (Byte × ℕ)) :
    duration (sound ++ sound') = duration sound + duration sound' := by
  rw [duration, List.map_append, List.sum_append]
  rfl

theorem duration_singleton (level : Byte) (cycles : ℕ) :
    duration [(level, cycles)] = cycles := by
  simp [duration]

theorem length_wave (sound : List (Byte × ℕ)) :
    (wave sound).length = duration sound := by
  induction sound with
  | nil => rfl
  | cons piece sound ih =>
      rw [wave, List.flatMap_cons, List.length_append, List.length_replicate,
        duration, List.map_cons, List.sum_cons]
      exact congrArg (piece.2 + ·) ih

/-- The sound of a step lasts as long as `last_cycles[0]` advances, and the
step does not pass the given cycle. -/
structure SoundKept (cycles : ℕ) (timer timer' : Timer8) : Prop where
  ledger : duration timer'.sound + timer.ch0.lastCycles =
    duration timer.sound + timer'.ch0.lastCycles
  forward : timer.ch0.lastCycles ≤ timer'.ch0.lastCycles
  bounded : timer'.ch0.lastCycles ≤ cycles

namespace SoundKept

variable {cycles : ℕ} {timer timer' timer'' : Timer8}

theorem of_eq (hlast : timer.ch0.lastCycles ≤ cycles)
    (hsound : timer'.sound = timer.sound)
    (hsame : timer'.ch0.lastCycles = timer.ch0.lastCycles) :
    SoundKept cycles timer timer' := by
  refine ⟨by rw [hsound, hsame], hsame.ge, ?_⟩
  rw [hsame]
  exact hlast

theorem trans (hfirst : SoundKept cycles timer timer')
    (hsecond : SoundKept cycles timer' timer'') :
    SoundKept cycles timer timer'' := by
  have hledger := hfirst.ledger
  have hledger' := hsecond.ledger
  exact ⟨by omega, hfirst.forward.trans hsecond.forward, hsecond.bounded⟩

end SoundKept

section Steps

variable {clock : Clock} {timer : Timer8}

theorem t8CheckNextCycle_last (timer : Timer8) (clock : Clock) :
    (t8CheckNextCycle timer clock).1.ch0.lastCycles =
      timer.ch0.lastCycles :=
  congrArg T8Core.last (t8CheckNextCycle_core timer clock)

theorem t8CheckNextCycle_kept {cycles : ℕ}
    (hlast : timer.ch0.lastCycles ≤ cycles) (clock : Clock) :
    SoundKept cycles timer (t8CheckNextCycle timer clock).1 :=
  .of_eq hlast (t8CheckNextCycle_sound timer clock)
    (t8CheckNextCycle_last timer clock)

theorem t8Count_kept {cycles : ℕ} (hlast : timer.ch0.lastCycles ≤ cycles)
    (hgap : cycles < timer.ch0.lastCycles + 2 ^ 31) :
    SoundKept cycles timer (t8Count cycles timer) := by
  by_cases hstopped : timer.shift = 31
  · have hsound : (t8Count cycles timer).sound = timer.sound ++
        [(timer.ch0.out, cycles - timer.ch0.lastCycles)] := by
      rw [t8Count, if_pos hstopped, uint64_sub_of_le hlast,
        uint32_natCast (by omega)]
    have hnew : (t8Count cycles timer).ch0.lastCycles = cycles := by
      rw [t8Count, if_pos hstopped]
    refine ⟨?_, by omega, by omega⟩
    rw [hsound, hnew, duration_append, duration_singleton]
    omega
  · by_cases hgate : cycles < timer.ch0.myNextCycle
    · rw [t8Count_eq_self hstopped hgate]
      exact .of_eq hlast rfl rfl
    · have hcount := t8Count_eq_loop hstopped hlast hgap (not_lt.mp hgate)
      have hshift : timer.shift ≤ 10 := (T8Core.shift_le
        (show timer.core.shift ≠ 31 from hstopped)).2
      have hdue := timer.due_mul_le cycles
      have hcounted := t8Loop_counted timer.shift (timer.due cycles + 1)
        (timer.due cycles) { timer.ch0 with
          lastCycles := timer.ch0.lastCycles +
            timer.due cycles * 2 ^ timer.shift } timer.sound
        (Nat.lt_succ_self _) (timer.due_lt hgap)
      obtain ⟨tail, hwave, htail⟩ := t8Loop_grows hshift
        (timer.due cycles + 1) (timer.due cycles) { timer.ch0 with
          lastCycles := timer.ch0.lastCycles +
            timer.due cycles * 2 ^ timer.shift } timer.sound
        (Nat.lt_succ_self _)
      have hlength := congrArg List.length hwave
      rw [List.length_append, length_wave, length_wave, htail] at hlength
      rw [hcount]
      refine ⟨?_, ?_, ?_⟩
      · simp only [hlength, hcounted.lastCycles]
        omega
      · simp only [hcounted.lastCycles]
        omega
      · simp only [hcounted.lastCycles]
        omega

theorem t8UpdateTime_kept (hlast : timer.ch0.lastCycles ≤ clock.cycles)
    (hgap : clock.cycles < timer.ch0.lastCycles + 2 ^ 31) :
    SoundKept clock.cycles timer (t8UpdateTime clock timer).1 := by
  have hcount := t8Count_kept hlast hgap
  exact hcount.trans (t8CheckNextCycle_kept hcount.bounded clock)

/-- The gates of the channels do not matter. -/
theorem t8UpdateTime_moved {timer' : Timer8}
    (hsound : timer'.sound = timer.sound)
    (hsame : timer'.ch0.lastCycles = timer.ch0.lastCycles)
    (hlast : timer.ch0.lastCycles ≤ clock.cycles)
    (hgap : clock.cycles < timer.ch0.lastCycles + 2 ^ 31) :
    SoundKept clock.cycles timer (t8UpdateTime clock timer').1 :=
  (SoundKept.of_eq hlast hsound hsame).trans
    (t8UpdateTime_kept (by omega) (by omega))

theorem t8Force0_kept (hlast : timer.ch0.lastCycles ≤ clock.cycles)
    (hgap : clock.cycles < timer.ch0.lastCycles + 2 ^ 31) :
    SoundKept clock.cycles timer (t8Force0 clock timer).1 := by
  rw [t8Force0]
  exact t8UpdateTime_moved rfl rfl hlast hgap

theorem t8Force1_kept (hlast : timer.ch0.lastCycles ≤ clock.cycles)
    (hgap : clock.cycles < timer.ch0.lastCycles + 2 ^ 31) :
    SoundKept clock.cycles timer (t8Force1 clock timer).1 := by
  rw [t8Force1]
  exact t8UpdateTime_moved rfl rfl hlast hgap

theorem t8SetLastCycles_kept (hlast : timer.ch0.lastCycles ≤ clock.cycles)
    (hgap : clock.cycles < timer.ch0.lastCycles + 2 ^ 31) :
    SoundKept clock.cycles timer (t8SetLastCycles clock timer) := by
  have hsound : (t8SetLastCycles clock timer).sound = timer.sound ++
      [(timer.ch0.out, clock.cycles - timer.ch0.lastCycles)] := by
    rw [t8SetLastCycles, uint64_sub_of_le hlast, uint32_natCast (by omega)]
  have hnew : (t8SetLastCycles clock timer).ch0.lastCycles =
      clock.cycles := rfl
  refine ⟨?_, by omega, by omega⟩
  rw [hsound, hnew, duration_append, duration_singleton]
  omega

theorem t8Set0_kept {change : T8Channel → T8Channel}
    (hchange : ∀ channel, (change channel).lastCycles = channel.lastCycles)
    (hlast : timer.ch0.lastCycles ≤ clock.cycles)
    (hgap : clock.cycles < timer.ch0.lastCycles + 2 ^ 31) :
    SoundKept clock.cycles timer (t8Set0 change clock timer).1 := by
  have hforced := t8Force0_kept hlast hgap
  have hchanged := SoundKept.of_eq hforced.bounded
    (show ((t8Force0 clock timer).1.modify0 change).sound = _ from rfl)
    (hchange (t8Force0 clock timer).1.ch0)
  exact (hforced.trans hchanged).trans
    (t8CheckNextCycle_kept hchanged.bounded _)

theorem t8Set1_kept (change : T8Channel → T8Channel)
    (hlast : timer.ch0.lastCycles ≤ clock.cycles)
    (hgap : clock.cycles < timer.ch0.lastCycles + 2 ^ 31) :
    SoundKept clock.cycles timer (t8Set1 change clock timer).1 := by
  have hforced := t8Force1_kept hlast hgap
  have hchanged := SoundKept.of_eq hforced.bounded
    (show ((t8Force1 clock timer).1.modify1 change).sound = _ from rfl) rfl
  exact (hforced.trans hchanged).trans
    (t8CheckNextCycle_kept hchanged.bounded _)

/-- The forced update of a write that also moves `last_cycles[0]`. -/
theorem t8Resync_kept {timer' : Timer8}
    (hsound : timer'.sound = timer.sound)
    (hsame : timer'.ch0.lastCycles = timer.ch0.lastCycles)
    (hlast : timer.ch0.lastCycles ≤ clock.cycles)
    (hgap : clock.cycles < timer.ch0.lastCycles + 2 ^ 31) :
    SoundKept clock.cycles timer
      (t8SetLastCycles (t8Force0 clock timer').2
        (t8Force0 clock timer').1) := by
  have hforced := t8Force0_kept (show timer'.ch0.lastCycles ≤ clock.cycles by
    omega) (by omega)
  have hforward := hforced.forward
  have hclock := t8Force0_cycles timer' clock
  have hset : SoundKept clock.cycles (t8Force0 clock timer').1
      (t8SetLastCycles (t8Force0 clock timer').2
        (t8Force0 clock timer').1) := by
    rw [← hclock]
    exact t8SetLastCycles_kept (hclock.ge.trans' hforced.bounded) (by omega)
  exact ((SoundKept.of_eq hlast hsound hsame).trans hforced).trans hset

theorem setTCR0_kept (val : Byte)
    (hlast : timer.ch0.lastCycles ≤ clock.cycles)
    (hgap : clock.cycles < timer.ch0.lastCycles + 2 ^ 31) :
    SoundKept clock.cycles timer (setTCR0 val clock timer).1 := by
  have hset : SoundKept clock.cycles timer (t8SetLastCycles
      (t8Force0 clock timer).2 (t8Force0 clock timer).1) :=
    t8Resync_kept rfl rfl hlast hgap
  have hchanged := SoundKept.of_eq hset.bounded
    (show ((t8SetLastCycles (t8Force0 clock timer).2
      (t8Force0 clock timer).1).modify0
        fun ch => { ch with tcr := val }).sound = _ from rfl) rfl
  exact (hset.trans hchanged).trans
    (t8CheckNextCycle_kept hchanged.bounded _)

theorem setTCR1_kept (val : Byte)
    (hlast : timer.ch0.lastCycles ≤ clock.cycles)
    (hgap : clock.cycles < timer.ch0.lastCycles + 2 ^ 31) :
    SoundKept clock.cycles timer (setTCR1 val clock timer).1 := by
  have hforced := t8Force1_kept hlast hgap
  have hchanged := SoundKept.of_eq hforced.bounded
    (show ((t8SetLastCycles1 (t8Force1 clock timer).2
      (t8Force1 clock timer).1).modify1
        fun ch => { ch with tcr := val }).sound = _ from rfl) rfl
  exact (hforced.trans hchanged).trans
    (t8CheckNextCycle_kept hchanged.bounded _)

theorem setSTCR_kept (val : Byte)
    (hlast : timer.ch0.lastCycles ≤ clock.cycles)
    (hgap : clock.cycles < timer.ch0.lastCycles + 2 ^ 31) :
    SoundKept clock.cycles timer (setSTCR val clock timer).1 := by
  rw [setSTCR]
  split
  · exact .of_eq hlast rfl rfl
  · obtain ⟨moved, hmoved⟩ : ∃ moved, moved =
      timer.modify1 fun ch => { ch with myNextCycle := clock.cycles } :=
        ⟨_, rfl⟩
    rw [← hmoved]
    have hset := t8Resync_kept
      (show moved.sound = timer.sound by rw [hmoved]; rfl)
      (by rw [hmoved]; rfl) hlast hgap
    have hchanged : SoundKept clock.cycles _
        { t8SetLastCycles1 (t8Force0 clock moved).2
          (t8SetLastCycles (t8Force0 clock moved).2 (t8Force0 clock moved).1)
            with stcr := val ||| 0xf8 } :=
      SoundKept.of_eq hset.bounded rfl rfl
    exact (hset.trans hchanged).trans
      (t8CheckNextCycle_kept hchanged.bounded _)

theorem t8Write_kept (register : T8Register) (val : Byte)
    (hlast : timer.ch0.lastCycles ≤ clock.cycles)
    (hgap : clock.cycles < timer.ch0.lastCycles + 2 ^ 31) :
    SoundKept clock.cycles timer (t8Write val clock timer register).1 := by
  cases register with
  | TCR0 => exact setTCR0_kept val hlast hgap
  | TCSR0 => exact t8Set0_kept (fun _ => rfl) hlast hgap
  | TCORA0 => exact t8Set0_kept (fun _ => rfl) hlast hgap
  | TCORB0 => exact t8Set0_kept (fun _ => rfl) hlast hgap
  | TCNT0 => exact t8Set0_kept (fun _ => rfl) hlast hgap
  | TCR1 => exact setTCR1_kept val hlast hgap
  | TCSR1 => exact t8Set1_kept _ hlast hgap
  | TCORA1 => exact t8Set1_kept _ hlast hgap
  | TCORB1 => exact t8Set1_kept _ hlast hgap
  | TCNT1 => exact t8Set1_kept _ hlast hgap
  | STCR => exact setSTCR_kept val hlast hgap

end Steps

/-- The accesses that call `t8_update_time`. -/
def T8Action.updates : T8Action → Bool
  | .read .TCSR0 | .read .TCSR1 => true
  | .read _ => false
  | .write .. | .update => true

/-- The channel is not updated `2 ^ 31` cycles or more after its last
update. -/
def T8InTime (event : Timed T8Action) (state : Timer8 × Clock) : Prop :=
  event.action.updates = true →
    event.cycle < state.1.ch0.lastCycles + 2 ^ 31

instance (event : Timed T8Action) (state : Timer8 × Clock) :
    Decidable (T8InTime event state) :=
  inferInstanceAs (Decidable (_ → _))

theorem t8Step_kept {event : Timed T8Action} {state : Timer8 × Clock}
    (hlast : state.1.ch0.lastCycles ≤ event.cycle)
    (hintime : T8InTime event state) :
    SoundKept event.cycle state.1 (t8Step event state).2.1 := by
  obtain ⟨cycle, action⟩ := event
  obtain ⟨timer, clock⟩ := state
  have hnow : timer.ch0.lastCycles ≤
      ({ clock with cycles := cycle } : Clock).cycles := hlast
  cases action with
  | read register =>
      cases register with
      | TCSR0 => exact t8Force0_kept hnow (hintime rfl)
      | TCSR1 => exact t8Force1_kept hnow (hintime rfl)
      | _ => exact .of_eq hlast rfl rfl
  | write register val => exact t8Write_kept register val hnow (hintime rfl)
  | update => exact t8UpdateTime_kept hnow (hintime rfl)

/-- In every run of accesses and updates the durations add up to the advance
of `last_cycles[0]`. -/
theorem sound_ledger {events : List (Timed T8Action)} :
    ∀ {state : Timer8 × Clock},
      Ordered state.1.ch0.lastCycles events →
      Along t8Step T8InTime events state →
      let final := (runTimed t8Step events state).2.1
      duration final.sound + state.1.ch0.lastCycles =
          duration state.1.sound + final.ch0.lastCycles ∧
        state.1.ch0.lastCycles ≤ final.ch0.lastCycles := by
  induction events with
  | nil =>
      intro state _ _
      exact ⟨rfl, le_rfl⟩
  | cons event events ih =>
      intro state hordered hintime
      obtain ⟨hlast, hrest⟩ := hordered
      obtain ⟨hnow, hlater⟩ := hintime
      have hstep := t8Step_kept hlast hnow
      obtain ⟨hledger, hforward⟩ := ih (hrest.mono hstep.bounded) hlater
      have hfirst := hstep.ledger
      have hahead := hstep.forward
      simp only [runTimed] at hledger hforward ⊢
      exact ⟨by omega, by omega⟩

/-- A stopped channel. -/
def stoppedTimer : Timer8 :=
  t8Reset ⟨0, 0, 0⟩ ⟨⟨0, 0, 0, 0, 0, 0, 0, 0⟩, ⟨0, 0, 0, 0, 0, 0, 0, 0⟩, 0,
    []⟩

/-- The channel is started, updated and read. -/
theorem sound_ledger_started :
    let events : List (Timed T8Action) :=
      [⟨10, .write .TCR0 1⟩, ⟨83, .read .TCSR0⟩, ⟨105, .write .STCR 1⟩]
    let final := (runTimed t8Step events (stoppedTimer, ⟨0, 0, 0⟩)).2.1
    duration final.sound + 0 = 0 + final.ch0.lastCycles ∧
      0 ≤ final.ch0.lastCycles :=
  sound_ledger (by decide) (by decide)

/-- Two reads of TCR0 on the way update nothing, and the next update hands
only the low 32 bits of the time to the sound. -/
theorem sound_ledger_fails_late :
    let events : List (Timed T8Action) :=
      [⟨2 ^ 31 - 1, .read .TCR0⟩, ⟨2 ^ 32 - 2, .read .TCR0⟩,
        ⟨2 ^ 32 + 5, .update⟩]
    let final := (runTimed t8Step events (stoppedTimer, ⟨0, 0, 0⟩)).2.1
    (0 :: events.map Timed.cycle).IsChain
        (fun before after => before ≤ after ∧ after < before + 2 ^ 31) ∧
      duration final.sound + 0 ≠ 0 + final.ch0.lastCycles := by
  decide +kernel

end BrickEmu
