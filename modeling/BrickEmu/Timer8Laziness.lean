import BrickEmu.LazyState
import BrickEmu.Timer8Ticks

/-!
# When the lazy 8-bit timer can be observed

Every access of channel 0 that depends on the count forces an update first,
except the read of TCNT0, which returns the register as the last update left
it.  Where no tick is outstanding at these reads, additional updates cannot
be observed, whether the gate lets them pass or not.
-/

namespace BrickEmu

open Timer8

def t8Lazy : LazyState T8Core where
  last := T8Core.last
  catchUp := T8Core.catchUp
  catchUp_last := T8Core.catchUp_last
  le_last _ _ := T8Core.le_catchUp_last
  last_le _ _ := T8Core.catchUp_last_le
  catchUp_catchUp := T8Core.catchUp_catchUp

inductive T8Action where
  | read (register : T8Register)
  | write (register : T8Register) (val : Byte)
  | update
  deriving DecidableEq

def t8Step (event : Timed T8Action) (state : Timer8 × Clock) :
    Option Byte × (Timer8 × Clock) :=
  let clock := { state.2 with cycles := event.cycle }
  match event.action with
  | .read register =>
      let result := t8Read clock state.1 register
      (some result.1, result.2)
  | .write register val => (none, t8Write val clock state.1 register)
  | .update => (none, t8UpdateTime clock state.1)

/-- The registers of channel 0 and the shared prescaler select. -/
def T8Register.ofChannel0 : T8Register → Bool
  | .TCR0 | .TCSR0 | .TCORA0 | .TCORB0 | .TCNT0 | .STCR => true
  | _ => false

/-- A guest access of channel 0. -/
def T8Action.access0 : T8Action → Bool
  | .read register => register.ofChannel0
  | .write register _ => register.ofChannel0
  | .update => false

/-- While the counter runs, TCNT0 is read with no tick outstanding and no
access comes `2 ^ 31` cycles or more after the last update. -/
def T8Prompt (event : Timed T8Action) (state : Timer8 × Clock) : Prop :=
  state.1.shift ≠ 31 →
    event.cycle < state.1.ch0.lastCycles +
      if event.action = .read .TCNT0 then 2 ^ state.1.shift else 2 ^ 31

instance (event : Timed T8Action) (state : Timer8 × Clock) :
    Decidable (T8Prompt event state) :=
  inferInstanceAs (Decidable (_ → _))

/-- What a guest can see of a run: the bytes read and the final count. -/
def T8Observation (run : List Byte × (Timer8 × Clock)) :
    List Byte × Byte × Byte × ℕ :=
  (run.1, run.2.1.ch0.tcnt, run.2.1.ch0.tcsr, run.2.1.ch0.lastCycles)

/-- The second run has made some of the ticks that are outstanding in the
first one. -/
def T8Ahead (now : ℕ) (left right : Timer8 × Clock) : Prop :=
  t8Lazy.Ahead now left.1.core right.1.core

theorem T8Ahead.mono {now later : ℕ} {left right : Timer8 × Clock}
    (hahead : T8Ahead now left right) (hle : now ≤ later) :
    T8Ahead later left right :=
  LazyState.Ahead.mono hahead hle

theorem T8Ahead.of_core_eq {now : ℕ} {left right : Timer8 × Clock}
    (heq : right.1.core = left.1.core) (hlast : left.1.core.last ≤ now) :
    T8Ahead now left right := by
  unfold T8Ahead
  rw [heq]
  exact LazyState.Ahead.refl hlast

theorem T8Ahead.shift_eq {now : ℕ} {left right : Timer8 × Clock}
    (hahead : T8Ahead now left right) : right.1.shift = left.1.shift := by
  obtain ⟨_, middle, _, _, hright⟩ := hahead
  change right.1.core.shift = left.1.core.shift
  rw [hright]
  exact T8Core.shift_catchUp middle _

/-- The registers that counting does not touch. -/
theorem T8Ahead.setup_eq {now : ℕ} {left right : Timer8 × Clock}
    (hahead : T8Ahead now left right) :
    right.1.ch0.tcr = left.1.ch0.tcr ∧
      right.1.ch0.tcora = left.1.ch0.tcora ∧
      right.1.ch0.tcorb = left.1.ch0.tcorb ∧ right.1.stcr = left.1.stcr := by
  obtain ⟨_, middle, _, _, hright⟩ := hahead
  change right.1.core = left.1.core.catchUp middle at hright
  have hsetup : right.1.core.tcr = left.1.core.tcr ∧
      right.1.core.tcora = left.1.core.tcora ∧
      right.1.core.tcorb = left.1.core.tcorb ∧
      right.1.core.stcr = left.1.core.stcr := by
    rw [hright, T8Core.catchUp]
    split_ifs <;> exact ⟨rfl, rfl, rfl, rfl⟩
  exact hsetup

/-- A forced update makes the two runs agree. -/
theorem T8Ahead.force0_core {left right : Timer8 × Clock}
    (clock clock' : Clock) (hcycles : clock'.cycles = clock.cycles)
    (hahead : T8Ahead clock.cycles left right)
    (hgap : left.1.shift ≠ 31 →
      clock.cycles < left.1.ch0.lastCycles + 2 ^ 31) :
    (t8Force0 clock left.1).1.core = left.1.core.catchUp clock.cycles ∧
      (t8Force0 clock' right.1).1.core =
        left.1.core.catchUp clock.cycles := by
  have hright : right.1.ch0.lastCycles ≤ clock.cycles :=
    hahead.right_last_le
  have hle : left.1.ch0.lastCycles ≤ right.1.ch0.lastCycles :=
    hahead.last_le_last
  refine ⟨t8Force0_core hahead.1 hgap, ?_⟩
  rw [t8Force0_core (hcycles ▸ hright) ?_, hcycles]
  · exact hahead.catchUp_eq
  · rw [hahead.shift_eq, hcycles]
    intro hrunning
    exact lt_of_lt_of_le (hgap hrunning) (Nat.add_le_add_right hle _)

/-- A setter of channel 0: a forced update, then a change that depends on the
brought-up registers only. -/
theorem T8Ahead.set0 {clock clock' : Clock} {left right : Timer8 × Clock}
    (hcycles : clock'.cycles = clock.cycles)
    (hahead : T8Ahead clock.cycles left right)
    (hgap : left.1.shift ≠ 31 →
      clock.cycles < left.1.ch0.lastCycles + 2 ^ 31)
    (change : T8Channel → T8Channel) (coreChange : T8Core → T8Core)
    (hcore : ∀ timer : Timer8,
      (timer.modify0 change).core = coreChange timer.core)
    (hlast : ∀ core, (coreChange core).last = core.last) :
    T8Ahead clock.cycles (t8Set0 change clock left.1)
      (t8Set0 change clock' right.1) := by
  obtain ⟨hleft, hright⟩ := hahead.force0_core clock clock' hcycles hgap
  refine T8Ahead.of_core_eq ?_ ?_
  · simp only [t8Set0, t8CheckNextCycle_core, hcore, hleft, hright]
  · simp only [t8Set0, t8CheckNextCycle_core, hcore, hlast, hleft]
    exact T8Core.catchUp_last_le hahead.1

theorem setTCR0_core (val : Byte) (clock : Clock) (timer : Timer8) :
    (setTCR0 val clock timer).1.core =
      { (t8Force0 clock timer).1.core with
        tcr := val, last := clock.cycles } := by
  simp only [setTCR0, t8CheckNextCycle_core]
  rw [← t8Force0_cycles timer clock]
  rfl

theorem setSTCR_core {val : Byte} {timer : Timer8} (clock : Clock)
    (hchange : (timer.stcr ^^^ val) &&& 3 ≠ 0) :
    (setSTCR val clock timer).1.core =
      { (t8Force0 clock (timer.modify1 fun ch =>
          { ch with myNextCycle := clock.cycles })).1.core with
        stcr := val ||| 0xf8, last := clock.cycles } := by
  rw [setSTCR, if_neg hchange]
  simp only [t8CheckNextCycle_core]
  generalize (timer.modify1 fun ch =>
    { ch with myNextCycle := clock.cycles }) = gated
  rw [← t8Force0_cycles gated clock]
  rfl

theorem setSTCR_same {val : Byte} {timer : Timer8} (clock : Clock)
    (hsame : (timer.stcr ^^^ val) &&& 3 = 0) :
    setSTCR val clock timer = (timer, clock) :=
  if_pos hsame

theorem t8_write_shared {register : T8Register} {val : Byte}
    {left right : Timer8 × Clock} (clock clock' : Clock)
    (hcycles : clock'.cycles = clock.cycles)
    (haccess : register.ofChannel0 = true)
    (hahead : T8Ahead clock.cycles left right)
    (hgap : left.1.shift ≠ 31 →
      clock.cycles < left.1.ch0.lastCycles + 2 ^ 31) :
    T8Ahead clock.cycles (t8Write val clock left.1 register)
      (t8Write val clock' right.1 register) := by
  cases register with
  | TCSR0 =>
      exact hahead.set0 hcycles hgap _
        (fun core => { core with
          tcsr := (val &&& (core.tcsr ||| 0x0f)) ||| 0x10 })
        (fun _ => rfl) (fun _ => rfl)
  | TCORA0 =>
      exact hahead.set0 hcycles hgap _
        (fun core => { core with tcora := val }) (fun _ => rfl) (fun _ => rfl)
  | TCORB0 =>
      exact hahead.set0 hcycles hgap _
        (fun core => { core with tcorb := val }) (fun _ => rfl) (fun _ => rfl)
  | TCNT0 =>
      exact hahead.set0 hcycles hgap _
        (fun core => { core with tcnt := val }) (fun _ => rfl) (fun _ => rfl)
  | TCR0 =>
      obtain ⟨hleft, hright⟩ := hahead.force0_core clock clock' hcycles hgap
      refine T8Ahead.of_core_eq ?_ ?_
      · simp only [t8Write, setTCR0_core, hleft, hright, hcycles]
      · simp only [t8Write, setTCR0_core, le_refl]
  | STCR =>
      have hstcr : right.1.stcr = left.1.stcr := hahead.setup_eq.2.2.2
      simp only [t8Write]
      by_cases hsame : (left.1.stcr ^^^ val) &&& 3 = 0
      · rw [setSTCR_same clock hsame, setSTCR_same clock' (hstcr ▸ hsame)]
        exact hahead
      · have hgated : T8Ahead clock.cycles
            (left.1.modify1 fun ch =>
              { ch with myNextCycle := clock.cycles }, left.2)
            (right.1.modify1 fun ch =>
              { ch with myNextCycle := clock'.cycles }, right.2) := hahead
        obtain ⟨hleft, hright⟩ :=
          hgated.force0_core clock clock' hcycles hgap
        refine T8Ahead.of_core_eq ?_ ?_
        · rw [setSTCR_core clock hsame, setSTCR_core clock' (hstcr ▸ hsame),
            hleft, hright, hcycles]
        · rw [setSTCR_core clock hsame]
  | TCR1 | TCSR1 | TCORA1 | TCORB1 | TCNT1 =>
      simp [T8Register.ofChannel0] at haccess

theorem t8_read_tcnt_shared {now : ℕ} {left right : Timer8 × Clock}
    (hahead : T8Ahead now left right)
    (hprompt : T8Prompt ⟨now, .read .TCNT0⟩ left) :
    right.1.ch0.tcnt = left.1.ch0.tcnt := by
  obtain ⟨_, middle, _, hle, hright⟩ := hahead
  change right.1.core = left.1.core.catchUp middle at hright
  change right.1.core.tcnt = left.1.core.tcnt
  rw [hright]
  by_cases hstopped : left.1.core.shift = 31
  · rw [T8Core.catchUp, if_pos hstopped]
  · have hnow : now < left.1.core.last + 2 ^ left.1.core.shift := by
      have := hprompt hstopped
      rwa [if_pos rfl] at this
    rw [T8Core.catchUp_eq_self hstopped (lt_of_le_of_lt hle hnow)]

theorem t8_read_shared {register : T8Register}
    {left right : Timer8 × Clock} (clock clock' : Clock)
    (hcycles : clock'.cycles = clock.cycles)
    (haccess : register.ofChannel0 = true)
    (hahead : T8Ahead clock.cycles left right)
    (hprompt : T8Prompt ⟨clock.cycles, .read register⟩ left) :
    (t8Read clock left.1 register).1 = (t8Read clock' right.1 register).1 ∧
      T8Ahead clock.cycles (t8Read clock left.1 register).2
        (t8Read clock' right.1 register).2 := by
  obtain ⟨htcr, htcora, htcorb, hstcr⟩ := hahead.setup_eq
  cases register with
  | TCR0 => exact ⟨htcr.symm, hahead⟩
  | TCORA0 => exact ⟨htcora.symm, hahead⟩
  | TCORB0 => exact ⟨htcorb.symm, hahead⟩
  | STCR => exact ⟨hstcr.symm, hahead⟩
  | TCNT0 => exact ⟨(t8_read_tcnt_shared hahead hprompt).symm, hahead⟩
  | TCSR0 =>
      obtain ⟨hleft, hright⟩ := hahead.force0_core clock clock' hcycles hprompt
      have hcore := hright.trans hleft.symm
      refine ⟨congrArg T8Core.tcsr hcore.symm, ?_⟩
      refine T8Ahead.of_core_eq hcore ?_
      simp only [t8Read, hleft]
      exact T8Core.catchUp_last_le hahead.1
  | TCR1 | TCSR1 | TCORA1 | TCORB1 | TCNT1 =>
      simp [T8Register.ofChannel0] at haccess

/-- An additional update either is stopped by the gate or brings the second
run further ahead. -/
theorem T8Ahead.update_right {left right : Timer8 × Clock} (clock : Clock)
    (hahead : T8Ahead clock.cycles left right)
    (hgap : left.1.shift ≠ 31 →
      clock.cycles < left.1.ch0.lastCycles + 2 ^ 31) :
    T8Ahead clock.cycles left (t8UpdateTime clock right.1) := by
  have hright : right.1.ch0.lastCycles ≤ clock.cycles :=
    hahead.right_last_le
  have hle : left.1.ch0.lastCycles ≤ right.1.ch0.lastCycles :=
    hahead.last_le_last
  have hrightGap : right.1.shift ≠ 31 →
      clock.cycles < right.1.ch0.lastCycles + 2 ^ 31 := by
    rw [hahead.shift_eq]
    intro hrunning
    exact lt_of_lt_of_le (hgap hrunning) (Nat.add_le_add_right hle _)
  unfold T8Ahead
  simp only [t8UpdateTime, t8CheckNextCycle_core]
  by_cases hgate : right.1.shift ≠ 31 → right.1.ch0.myNextCycle ≤ clock.cycles
  · rw [t8Count_core hright hrightGap hgate]
    exact hahead.catchUp_right
  · rw [Classical.not_imp, not_le] at hgate
    rw [t8Count_eq_self hgate.1 hgate.2]
    exact hahead

theorem T8Prompt.gap {event : Timed T8Action} {state : Timer8 × Clock}
    (hprompt : T8Prompt event state) (hrunning : state.1.shift ≠ 31) :
    event.cycle < state.1.ch0.lastCycles + 2 ^ 31 := by
  have hcore : state.1.core.shift ≠ 31 := hrunning
  have hshift : state.1.shift ≤ 10 := (T8Core.shift_le hcore).2
  have hpow : 2 ^ state.1.shift ≤ 2 ^ 31 :=
    Nat.pow_le_pow_right (by omega) (by omega)
  have hcycle := hprompt hrunning
  split_ifs at hcycle <;> omega

theorem t8_unobserved :
    Unobserved t8Step (· = T8Action.update)
      (fun event state => event.action.access0 = true ∧ T8Prompt event state)
      T8Ahead where
  shared := by
    rintro now ⟨cycle, action⟩ left right hnow hahead ⟨haccess, hprompt⟩
    have hahead := hahead.mono hnow
    cases action with
    | read register =>
        obtain ⟨hbyte, hstate⟩ := t8_read_shared
          { left.2 with cycles := cycle } { right.2 with cycles := cycle }
          rfl haccess hahead hprompt
        exact ⟨congrArg some hbyte, hstate⟩
    | write register val =>
        exact ⟨rfl, t8_write_shared
          { left.2 with cycles := cycle } { right.2 with cycles := cycle }
          rfl haccess hahead hprompt⟩
    | update => simp [T8Action.access0] at haccess
  inserted := by
    rintro now ⟨cycle, action⟩ later left right hnow hlater hahead
      ⟨haccess, hprompt⟩ rfl
    have hahead := hahead.mono hnow
    change cycle ≤ later.cycle at hlater
    refine ⟨rfl, T8Ahead.update_right { right.2 with cycles := cycle }
      hahead ?_⟩
    intro hrunning
    exact lt_of_le_of_lt hlater (hprompt.gap hrunning)

/-- In every run of channel 0 whose TCNT0 reads find no tick outstanding,
additional updates change neither a byte read nor the count after the forced
update of a last TCSR0 read. -/
theorem t8_updates_unobserved (timer : Timer8) (clock : Clock)
    (base more : List (Timed T8Action)) (final : ℕ)
    (hguest : ∀ event ∈ base, event.action.access0 = true)
    (hextends : Extends (· = T8Action.update) base more)
    (hordered : Ordered timer.ch0.lastCycles
      (more ++ [⟨final, .read .TCSR0⟩]))
    (hprompt : Along t8Step T8Prompt (base ++ [⟨final, .read .TCSR0⟩])
      (timer, clock)) :
    T8Observation (runTimed t8Step (base ++ [⟨final, .read .TCSR0⟩])
        (timer, clock)) =
      T8Observation (runTimed t8Step (more ++ [⟨final, .read .TCSR0⟩])
        (timer, clock)) := by
  have hall : ∀ event ∈ base ++ [⟨final, .read .TCSR0⟩],
      event.action.access0 = true := by
    intro event hevent
    rcases List.mem_append.mp hevent with hbase | hfinal
    · exact hguest event hbase
    · rw [List.mem_singleton.mp hfinal]
      rfl
  have hstart : T8Ahead timer.ch0.lastCycles (timer, clock) (timer, clock) :=
    T8Ahead.of_core_eq rfl le_rfl
  obtain ⟨hreads, ⟨_, hfinal⟩, before, hbefore, hahead⟩ :=
    t8_unobserved.run_eq hextends ⟨final, .read .TCSR0⟩ hstart hordered
      (hprompt.and_of_forall hall)
  set left := (runTimed t8Step base (timer, clock)).2
  set right := (runTimed t8Step more (timer, clock)).2
  obtain ⟨hleft, hright⟩ := (hahead.mono hbefore).force0_core
    { left.2 with cycles := final } { right.2 with cycles := final } rfl
    hfinal
  have hcore := hleft.trans hright.symm
  have htcnt := congrArg T8Core.tcnt hcore
  have htcsr := congrArg T8Core.tcsr hcore
  have hlast := congrArg T8Core.last hcore
  simp only [Timer8.core] at htcnt htcsr hlast
  simp only [T8Observation, runTimed_append, runTimed, t8Step, t8Read,
    hreads]
  rw [htcnt, htcsr, hlast]

/-- Channel 0 running at one tick per 8 cycles: a TCNT0 read right after a
TCSR0 read does not notice the updates before it. -/
theorem t8_updates_unobserved_poll :
    T8Observation (runTimed t8Step
        ([⟨0, .write .TCR0 1⟩, ⟨803, .read .TCSR0⟩, ⟨805, .read .TCNT0⟩] ++
          [⟨4000, .read .TCSR0⟩])
        (t8Reset ⟨0, 0, 0⟩ ⟨⟨0, 0, 0, 0, 0, 0, 0, 0⟩,
          ⟨0, 0, 0, 0, 0, 0, 0, 0⟩, 0, []⟩, ⟨0, 0, 0⟩)) =
      T8Observation (runTimed t8Step
        ([⟨0, .write .TCR0 1⟩, ⟨500, .update⟩, ⟨803, .read .TCSR0⟩,
          ⟨805, .read .TCNT0⟩, ⟨3500, .update⟩] ++ [⟨4000, .read .TCSR0⟩])
        (t8Reset ⟨0, 0, 0⟩ ⟨⟨0, 0, 0, 0, 0, 0, 0, 0⟩,
          ⟨0, 0, 0, 0, 0, 0, 0, 0⟩, 0, []⟩, ⟨0, 0, 0⟩)) :=
  t8_updates_unobserved _ _ _ _ _ (by simp [T8Action.access0,
      T8Register.ofChannel0])
    (.keep _ (.insert rfl (.keep _ (.keep _ (.insert rfl .nil)))))
    (by decide) (by decide)

/-- The counter is started at cycle 0 and TCNT0 is read at cycle 2100: the
guest reads 0 although 262 ticks have passed, and reads 6 when an update
happens to come first. -/
theorem t8_tcnt_read_is_stale :
    let timer : Timer8 := t8Reset ⟨0, 0, 0⟩ ⟨⟨0, 0, 0, 0, 0, 0, 0, 0⟩,
      ⟨0, 0, 0, 0, 0, 0, 0, 0⟩, 0, []⟩
    let base : List (Timed T8Action) :=
      [⟨0, .write .TCR0 1⟩, ⟨2100, .read .TCNT0⟩]
    let more : List (Timed T8Action) :=
      [⟨0, .write .TCR0 1⟩, ⟨2100, .update⟩, ⟨2100, .read .TCNT0⟩]
    (∀ event ∈ base, event.action.access0 = true) ∧
      Extends (· = T8Action.update) base more ∧
      Ordered timer.ch0.lastCycles (more ++ [⟨2100, .read .TCSR0⟩]) ∧
      T8Observation (runTimed t8Step (base ++ [⟨2100, .read .TCSR0⟩])
          (timer, ⟨0, 0, 0⟩)) ≠
        T8Observation (runTimed t8Step (more ++ [⟨2100, .read .TCSR0⟩])
          (timer, ⟨0, 0, 0⟩)) := by
  refine ⟨by simp [T8Action.access0, T8Register.ofChannel0],
    Extends.keep _ (Extends.insert rfl (Extends.keep _ Extends.nil)),
    by decide, by decide⟩

end BrickEmu
