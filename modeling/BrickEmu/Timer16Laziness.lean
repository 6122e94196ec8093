import BrickEmu.LazyState
import BrickEmu.Timer16Ticks

/-!
# When the lazy 16-bit timer can be observed

The counter is only brought up to date by `t16_update_time` and by writes
of TCR.  Reads of FRCH and TCSR and writes of TCSR, FRCL and OCRL use the
registers as they are, so they see how long ago the last update was.  Where
no tick is outstanding at these accesses, additional updates cannot be
observed.
-/

namespace BrickEmu

open Timer16

inductive T16Action where
  | read (register : T16Register)
  | write (register : T16Register) (val : Byte)
  | update
  deriving DecidableEq

/-- One timed access, with the byte a read returns. -/
def t16Step (event : Timed T16Action) (state : Timer16 × Clock) :
    Option Byte × (Timer16 × Clock) :=
  let clock := { state.2 with cycles := event.cycle }
  match event.action with
  | .read register =>
      let result := t16Read state.1 register
      (some result.1, result.2, clock)
  | .write register val => (none, t16Write val clock state.1 register)
  | .update => (none, t16UpdateTime clock state.1)

/-- Accesses that use `frc` or `tcsr` without an update, or that change
what the outstanding ticks will do. -/
def T16Action.stale : T16Action → Bool
  | .read .FRCH => true
  | .read .TCSR => true
  | .write .TCSR _ => true
  | .write .FRCL _ => true
  | .write .OCRL _ => true
  | _ => false

/-- No tick is outstanding at a stale access, and no access comes `2 ^ 31`
cycles or more after the last update. -/
def T16Prompt (event : Timed T16Action) (state : Timer16 × Clock) : Prop :=
  event.cycle < state.1.myLastCycles +
    if event.action.stale then 2 ^ freq state.1.tcr else 2 ^ 31

instance (event : Timed T16Action) (state : Timer16 × Clock) :
    Decidable (T16Prompt event state) :=
  inferInstanceAs (Decidable (_ < _))

/-- What a guest can see of a run: the bytes read and the final counter. -/
def T16Observation (run : List Byte × (Timer16 × Clock)) :
    List Byte × Word × Word × Word × Byte :=
  (run.1, run.2.1.frc, run.2.1.ocra, run.2.1.ocrb, run.2.1.tcsr)

def t16Lazy : LazyState Timer16 where
  last := Timer16.myLastCycles
  catchUp := Timer16.catchUp
  catchUp_last _ :=
    catchUp_eq_self (Nat.lt_add_of_pos_right (Nat.two_pow_pos _))
  le_last now timer _ := le_catchUp_last now timer
  last_le _ _ := catchUp_last_le
  catchUp_catchUp := catchUp_catchUp

/-- The second run has made some of the ticks that are outstanding in the
first one. -/
def T16Ahead (now : ℕ) (left right : Timer16 × Clock) : Prop :=
  t16Lazy.Ahead now left.1 right.1

theorem T16Ahead.mono {now later : ℕ} {left right : Timer16 × Clock}
    (hahead : T16Ahead now left right) (hle : now ≤ later) :
    T16Ahead later left right :=
  LazyState.Ahead.mono hahead hle

/-- Both runs agree once they have been brought up to date. -/
theorem T16Ahead.count_eq {now : ℕ} {left right : Timer16 × Clock}
    (hahead : T16Ahead now left right)
    (hgap : now < left.1.myLastCycles + 2 ^ 31) :
    t16Count now left.1 = left.1.catchUp now ∧
      t16Count now right.1 = left.1.catchUp now := by
  have hrightLast : right.1.myLastCycles ≤ now := hahead.right_last_le
  have hle : left.1.myLastCycles ≤ right.1.myLastCycles :=
    hahead.last_le_last
  refine ⟨t16Count_eq_catchUp hahead.1 hgap, ?_⟩
  rw [t16Count_eq_catchUp hrightLast (by omega)]
  exact hahead.catchUp_eq

/-- Where no tick is outstanding the two timers are the same. -/
theorem T16Ahead.eq_of_prompt {now : ℕ} {left right : Timer16 × Clock}
    (hahead : T16Ahead now left right)
    (hprompt : now < left.1.myLastCycles + 2 ^ freq left.1.tcr) :
    right.1 = left.1 := by
  obtain ⟨_, middle, _, hnow, hright⟩ := hahead
  rw [hright]
  exact catchUp_eq_self (lt_of_le_of_lt hnow hprompt)

theorem T16Ahead.of_eq {now : ℕ} {left right : Timer16 × Clock}
    (heq : right.1 = left.1) (hlast : left.1.myLastCycles ≤ now) :
    T16Ahead now left right := by
  unfold T16Ahead
  rw [heq]
  exact LazyState.Ahead.refl hlast

theorem t16_read_shared {cycle : ℕ} {register : T16Register}
    {left right : Timer16 × Clock} (hahead : T16Ahead cycle left right)
    (hprompt : T16Prompt ⟨cycle, .read register⟩ left) :
    (t16Read left.1 register).1 = (t16Read right.1 register).1 ∧
      ∀ clock clock', T16Ahead cycle ((t16Read left.1 register).2, clock)
        ((t16Read right.1 register).2, clock') := by
  have hkeep : ∀ clock clock',
      T16Ahead cycle (left.1, clock) (right.1, clock') :=
    fun _ _ => hahead
  obtain ⟨hlast, middle, hmiddle, hle, hright⟩ := id hahead
  cases register with
  | FRCH | TCSR =>
      have heq := hahead.eq_of_prompt hprompt
      rw [heq]
      refine ⟨rfl, fun clock clock' => ?_⟩
      exact T16Ahead.of_eq rfl hlast
  | TIER | FRCL | OCRH | OCRL | TCR | TOCR =>
      refine ⟨?_, hkeep⟩
      rw [hright]
      rfl

theorem t16_write_shared {cycle : ℕ} {register : T16Register} {val : Byte}
    {left right : Timer16 × Clock} (hahead : T16Ahead cycle left right)
    (hprompt : T16Prompt ⟨cycle, .write register val⟩ left)
    (clock clock' : Clock) (hclock : clock.cycles = cycle)
    (hclock' : clock'.cycles = cycle) :
    T16Ahead cycle (t16Write val clock left.1 register)
      (t16Write val clock' right.1 register) := by
  have hlast := hahead.1
  cases register with
  | TCSR | FRCL =>
      have heq := hahead.eq_of_prompt hprompt
      refine T16Ahead.of_eq ?_ hlast
      rw [heq]
      rfl
  | OCRL =>
      have heq := hahead.eq_of_prompt hprompt
      refine T16Ahead.of_eq ?_ ?_
      · rw [heq]
        rfl
      · simp only [t16Write, t16Store, setOCRL]
        split_ifs <;> exact hlast
  | TCR =>
      obtain ⟨hleft, hright⟩ := hahead.count_eq hprompt
      simp only [t16Write, t16Store, t16UpdateTime, hclock, hclock', hleft,
        hright]
      exact T16Ahead.of_eq rfl (t16Lazy.last_le cycle left.1 hlast)
  | TIER =>
      exact hahead.map (fun timer => { timer with tier := val ||| 1 }) rfl
        (fun _ => rfl)
  | FRCH => exact hahead.map (setFRCH val) rfl (fun _ => rfl)
  | OCRH => exact hahead.map (setOCRH val) rfl (fun _ => rfl)
  | TOCR => exact hahead.map (setTOCR val) rfl (fun _ => rfl)

theorem t16_unobserved :
    Unobserved t16Step (· = T16Action.update) T16Prompt T16Ahead where
  shared := by
    rintro now ⟨cycle, action⟩ left right hnow hahead hprompt
    have hahead := hahead.mono hnow
    cases action with
    | read register =>
        obtain ⟨hbyte, hstate⟩ := t16_read_shared hahead hprompt
        exact ⟨congrArg some hbyte, hstate _ _⟩
    | write register val =>
        exact ⟨rfl, t16_write_shared hahead hprompt _ _ rfl rfl⟩
    | update =>
        obtain ⟨hleft, hright⟩ := hahead.count_eq hprompt
        refine ⟨rfl, ?_⟩
        simp only [t16Step, t16UpdateTime, hleft, hright]
        exact T16Ahead.of_eq rfl (t16Lazy.last_le cycle left.1 hahead.1)
  inserted := by
    rintro now ⟨cycle, action⟩ later left right hnow hlater hahead hprompt rfl
    have hahead := hahead.mono hnow
    change cycle ≤ later.cycle at hlater
    have hgap : cycle < left.1.myLastCycles + 2 ^ 31 := by
      have hfreq := freq_pos_le left.1.tcr
      have hpow : 2 ^ freq left.1.tcr ≤ 2 ^ 31 :=
        Nat.pow_le_pow_right (by omega) (by omega)
      unfold T16Prompt at hprompt
      split_ifs at hprompt <;> omega
    obtain ⟨_, hright⟩ := hahead.count_eq hgap
    refine ⟨rfl, ?_⟩
    simp only [t16Step, t16UpdateTime, hright]
    exact ⟨hahead.1, cycle, hahead.1, le_rfl, rfl⟩

/-- In every run whose stale accesses find no tick outstanding, additional
updates change neither a byte read nor the final counter. -/
theorem t16_updates_unobserved (timer : Timer16) (clock : Clock)
    (base more : List (Timed T16Action)) (final : ℕ)
    (hextends : Extends (· = T16Action.update) base more)
    (hordered : Ordered timer.myLastCycles (more ++ [⟨final, .update⟩]))
    (hprompt : Along t16Step T16Prompt (base ++ [⟨final, .update⟩])
      (timer, clock)) :
    T16Observation (runTimed t16Step (base ++ [⟨final, .update⟩])
        (timer, clock)) =
      T16Observation (runTimed t16Step (more ++ [⟨final, .update⟩])
        (timer, clock)) := by
  obtain ⟨hreads, hfinal, before, hbefore, hahead⟩ :=
    t16_unobserved.run_eq hextends ⟨final, .update⟩
      (T16Ahead.of_eq rfl le_rfl) hordered hprompt
  obtain ⟨hleft, hright⟩ := (hahead.mono hbefore).count_eq hfinal
  simp only [T16Observation, runTimed_append, runTimed, t16Step,
    t16UpdateTime, hreads, hleft, hright]

/-- A guest that updates, reads FRCH within the same tick and reprograms the
prescaler does not notice an update in between. -/
theorem t16_updates_unobserved_poll :
    T16Observation (runTimed t16Step
        ([⟨1000, .update⟩, ⟨1001, .read .FRCH⟩, ⟨1040, .write .TCR 2⟩] ++
          [⟨2000, .update⟩])
        (⟨0, 0xffff, 0xffff, 0, 1, 0, 0xe0, 0, 0⟩, ⟨0, 0, 0⟩)) =
      T16Observation (runTimed t16Step
        ([⟨1000, .update⟩, ⟨1001, .read .FRCH⟩, ⟨1020, .update⟩,
          ⟨1040, .write .TCR 2⟩] ++ [⟨2000, .update⟩])
        (⟨0, 0xffff, 0xffff, 0, 1, 0, 0xe0, 0, 0⟩, ⟨0, 0, 0⟩)) :=
  t16_updates_unobserved _ _ _ _ _
    (.keep _ (.keep _ (.insert rfl (.keep _ .nil))))
    (by decide) (by decide)

/-- Reset at cycle 0, FRCH read at cycle 1024: the guest reads 0 although
512 ticks have passed, and reads 2 when an update happens to come first. -/
theorem t16_frc_read_is_stale :
    let timer : Timer16 := t16Reset ⟨0, 0, 0⟩ ⟨0, 0, 0, 0, 0, 0, 0, 0, 0⟩
    let base : List (Timed T16Action) := [⟨1024, .read .FRCH⟩]
    let more : List (Timed T16Action) :=
      [⟨1024, .update⟩, ⟨1024, .read .FRCH⟩]
    Extends (· = T16Action.update) base more ∧
      Ordered timer.myLastCycles (more ++ [⟨1024, .update⟩]) ∧
      T16Observation (runTimed t16Step (base ++ [⟨1024, .update⟩])
          (timer, ⟨0, 0, 0⟩)) ≠
        T16Observation (runTimed t16Step (more ++ [⟨1024, .update⟩])
          (timer, ⟨0, 0, 0⟩)) := by
  refine ⟨Extends.insert rfl (Extends.keep _ Extends.nil), ?_, ?_⟩
  · simp [Ordered, t16Reset]
  · decide

end BrickEmu
