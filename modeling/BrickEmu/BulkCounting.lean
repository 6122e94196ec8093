import BrickEmu.LoopPasses
import BrickEmu.Timer16Ticks
import BrickEmu.Timer8Ticks

/-!
# Counting in bulk

Both timers count the ticks since the last update at once.  The loops that
do it terminate, and they leave the registers as single ticks would.
-/

namespace BrickEmu

/-! ## The 16-bit timer -/

section Sixteen

open Timer16

/-- A pass of the loop at `repeat_cycle` over `frc`, `newfrc` and `tcsr`. -/
def repeatPass (ocra ocrb : ℕ) : ℕ × ℕ × Byte → (ℕ × Byte) ⊕ (ℕ × ℕ × Byte)
  | (frc, newfrc, tcsr) =>
      let matchA := frc ≤ ocra ∧ ocra < newfrc
      let tcsr := if matchA then tcsr ||| OCFA else tcsr
      if matchA ∧ tcsr &&& CCLRA ≠ 0 then
        let tcsr :=
          if frc ≤ ocrb ∧ ocrb ≤ ocra then tcsr ||| OCFB else tcsr
        .inr (0, newfrc - (ocra + 1), tcsr)
      else
        let tcsr :=
          if frc ≤ ocrb ∧ ocrb < newfrc then tcsr ||| OCFB else tcsr
        if 0xffff < newfrc then .inr (0, newfrc - 0x10000, tcsr ||| OVF)
        else .inl (newfrc, tcsr)

theorem repeatCycle_eq_runPasses (ocra ocrb fuel : ℕ) :
    ∀ (frc newfrc : ℕ) (tcsr : Byte),
      repeatCycle ocra ocrb fuel frc newfrc tcsr =
        runPasses (repeatPass ocra ocrb) (fun state => state.2) fuel
          (frc, newfrc, tcsr) := by
  induction fuel with
  | zero => exact fun _ _ _ => rfl
  | succ fuel ih =>
      intro frc newfrc tcsr
      rw [repeatCycle, runPasses, repeatPass]
      simp only [ih]
      split_ifs <;> rfl

theorem repeatPass_lower (ocra ocrb : ℕ) (state state' : ℕ × ℕ × Byte)
    (hpass : repeatPass ocra ocrb state = .inr state') :
    state'.2.1 < state.2.1 := by
  obtain ⟨frc, newfrc, tcsr⟩ := state
  rw [repeatPass] at hpass
  simp only at hpass
  split_ifs at hpass <;> cases hpass <;> simp only <;> omega

/-- The loop at `repeat_cycle` terminates from every state. -/
theorem repeatCycle_leaves (ocra ocrb frc newfrc : ℕ) (tcsr : Byte) :
    Leaves (repeatPass ocra ocrb) (frc, newfrc, tcsr)
      (repeatCycle ocra ocrb (newfrc + 1) frc newfrc tcsr) := by
  rw [repeatCycle_eq_runPasses]
  exact runPasses_leaves _ (fun state => state.2.1)
    (repeatPass_lower ocra ocrb) _ _ (Nat.lt_succ_self newfrc)

/-- One tick of the timer. -/
def Timer16.tick (timer : Timer16) : Timer16 :=
  let counted := timer.counter.tick (timer.frc.toNat, timer.tcsr)
  { timer with
    frc := BitVec.ofNat 16 counted.1
    tcsr := counted.2
    myLastCycles := timer.myLastCycles + 2 ^ freq timer.tcr }

theorem Timer16.catchUp_congr {timer : Timer16} {now now' : ℕ}
    (hticks : timer.prescaled.ticks (freq timer.tcr) now =
      timer.prescaled.ticks (freq timer.tcr) now') :
    timer.catchUp now = timer.catchUp now' := by
  simp only [catchUp, eager, Prescaled.advance, hticks]

theorem Timer16.ticks_add_mul (timer : Timer16) (n : ℕ) :
    timer.prescaled.ticks (freq timer.tcr)
      (timer.myLastCycles + n * 2 ^ freq timer.tcr) = n := by
  change (timer.myLastCycles + n * 2 ^ freq timer.tcr -
    timer.myLastCycles) / 2 ^ freq timer.tcr = n
  rw [Nat.add_sub_cancel_left, Nat.mul_div_cancel _ (Nat.two_pow_pos _)]

theorem Timer16.tick_eq_catchUp (timer : Timer16) :
    timer.tick = timer.catchUp (timer.myLastCycles + 2 ^ freq timer.tcr) := by
  have hticks := timer.ticks_add_mul 1
  rw [one_mul] at hticks
  simp only [tick, catchUp, eager, Prescaled.advance, hticks, one_mul]
  rfl

/-- Single ticks bring the timer up to the cycle of the last one. -/
theorem Timer16.iterate_tick (timer : Timer16) (n : ℕ) :
    Timer16.tick^[n] timer =
      timer.catchUp (timer.myLastCycles + n * 2 ^ freq timer.tcr) := by
  induction n with
  | zero =>
      rw [zero_mul, add_zero]
      exact (catchUp_eq_self
        (Nat.lt_add_of_pos_right (Nat.two_pow_pos _))).symm
  | succ n ih =>
      obtain ⟨middle, hmiddle⟩ : ∃ middle, middle =
        timer.myLastCycles + n * 2 ^ freq timer.tcr := ⟨_, rfl⟩
      have hlast : (timer.catchUp middle).myLastCycles = middle := by
        have hticks := timer.ticks_add_mul n
        rw [← hmiddle] at hticks
        change timer.myLastCycles +
          timer.prescaled.ticks (freq timer.tcr) middle *
            2 ^ freq timer.tcr = middle
        rw [hticks, hmiddle]
      have htcr : (timer.catchUp middle).tcr = timer.tcr := rfl
      rw [Function.iterate_succ_apply', ih, ← hmiddle, tick_eq_catchUp,
        hlast, htcr, catchUp_catchUp (by omega) (Nat.le_add_right _ _),
        hmiddle, Nat.succ_mul, Nat.add_assoc]

/-- The ticks that are due at a cycle. -/
def Timer16.due (now : ℕ) (timer : Timer16) : ℕ :=
  (now - timer.myLastCycles) / 2 ^ freq timer.tcr

theorem Timer16.catchUp_eq_ticks (now : ℕ) (timer : Timer16) :
    timer.catchUp now = Timer16.tick^[timer.due now] timer := by
  rw [iterate_tick]
  apply catchUp_congr
  rw [ticks_add_mul]
  rfl

/-- Updates on the way leave no trace. -/
theorem t16_updates_split {clocks : List Clock} :
    ∀ {timer : Timer16} {now : ℕ},
      (∀ clock ∈ clocks, timer.myLastCycles ≤ clock.cycles ∧
        clock.cycles ≤ now) →
      clocks.Pairwise (fun earlier later => earlier.cycles ≤ later.cycles) →
      timer.myLastCycles ≤ now → now < timer.myLastCycles + 2 ^ 31 →
      (clocks.foldl (fun timer clock => (t16UpdateTime clock timer).1)
        timer).catchUp now = timer.catchUp now ∧
      timer.myLastCycles ≤ (clocks.foldl
        (fun timer clock => (t16UpdateTime clock timer).1)
          timer).myLastCycles ∧
      (clocks.foldl (fun timer clock => (t16UpdateTime clock timer).1)
        timer).myLastCycles ≤ now := by
  induction clocks with
  | nil => exact fun _ _ hle _ => ⟨rfl, le_rfl, hle⟩
  | cons clock clocks ih =>
      intro timer now hbounds hsorted hle hgap
      obtain ⟨hfirst, hrest⟩ := List.pairwise_cons.mp hsorted
      obtain ⟨hlast, hnow⟩ := hbounds clock (List.mem_cons_self ..)
      have hupdate : (t16UpdateTime clock timer).1 =
          timer.catchUp clock.cycles :=
        t16Count_eq_catchUp hlast (by omega)
      have hup := catchUp_last_le hlast
      have hdown := le_catchUp_last clock.cycles timer
      have hbounds' : ∀ later ∈ clocks,
          (timer.catchUp clock.cycles).myLastCycles ≤ later.cycles ∧
            later.cycles ≤ now := by
        intro later hlater
        exact ⟨hup.trans (hfirst later hlater),
          (hbounds later (List.mem_cons_of_mem _ hlater)).2⟩
      obtain ⟨heq, hge, hend⟩ := ih hbounds' hrest (by omega) (by omega)
      rw [List.foldl_cons, hupdate]
      exact ⟨heq.trans (catchUp_catchUp hlast hnow), by omega, hend⟩

/-- For all registers, prescalers and elapsed times below `2 ^ 31` cycles:
an update makes the ticks that are due, its loop terminates, and updates on
the way change nothing. -/
theorem t16_update_eq_ticks {clock : Clock} {timer : Timer16}
    (hlast : timer.myLastCycles ≤ clock.cycles)
    (hgap : clock.cycles < timer.myLastCycles + 2 ^ 31) :
    (t16UpdateTime clock timer).1 =
      Timer16.tick^[timer.due clock.cycles] timer ∧
    (∃ result, Leaves (repeatPass timer.ocra.toNat timer.ocrb.toNat)
      (timer.frc.toNat, timer.frc.toNat + timer.due clock.cycles, timer.tcsr)
      result ∧ (t16UpdateTime clock timer).1.frc = BitVec.ofNat 16 result.1 ∧
        (t16UpdateTime clock timer).1.tcsr = result.2) ∧
    ∀ clocks : List Clock,
      (∀ earlier ∈ clocks, timer.myLastCycles ≤ earlier.cycles ∧
        earlier.cycles ≤ clock.cycles) →
      clocks.Pairwise (fun earlier later => earlier.cycles ≤ later.cycles) →
      (t16UpdateTime clock (clocks.foldl
        (fun timer clock => (t16UpdateTime clock timer).1) timer)).1 =
          (t16UpdateTime clock timer).1 := by
  have hupdate : (t16UpdateTime clock timer).1 =
      timer.catchUp clock.cycles := t16Count_eq_catchUp hlast hgap
  refine ⟨hupdate.trans (timer.catchUp_eq_ticks clock.cycles), ?_, ?_⟩
  · refine ⟨_, repeatCycle_leaves .., ?_⟩
    have hincrement := t16_increment hlast hgap
    have hnew := t16_newfrc hgap
    simp only [t16UpdateTime, t16Count, hincrement, hnew]
    exact ⟨rfl, rfl⟩
  · intro clocks hbounds hsorted
    obtain ⟨heq, hge, hend⟩ := t16_updates_split hbounds hsorted hlast hgap
    have hsplit := t16Count_eq_catchUp hend (by omega)
    exact (hsplit.trans heq).trans hupdate.symm

/-- A timer that is cleared at 9 and 20 cycles behind. -/
def behindTimer16 : Timer16 where
  frc := 5
  ocra := 9
  ocrb := 7
  tcsr := 0x01
  tier := 0x01
  tcr := 0
  tocr := 0xe0
  temp := 0
  myLastCycles := 0

theorem t16_update_eq_ticks_behind :
    (t16UpdateTime ⟨20, 1600000, 1600000⟩ behindTimer16).1 =
      Timer16.tick^[behindTimer16.due 20] behindTimer16 :=
  (t16_update_eq_ticks (show behindTimer16.myLastCycles ≤
    (⟨20, 1600000, 1600000⟩ : Clock).cycles by decide) (by decide)).1

end Sixteen

/-! ## The 8-bit timer -/

section Eight

open Timer8

/-- A pass of the `while (incr)` loop over `incr`, the channel and the
sound. -/
def t8Pass (shift : ℕ) : ℤ × T8Channel × List (Byte × ℕ) →
    (T8Channel × List (Byte × ℕ)) ⊕ (ℤ × T8Channel × List (Byte × ℕ))
  | (incr, channel, sound) =>
      let cnt := channel.tcnt.toNat
      let tcora := channel.tcora.toNat
      let tcorb := channel.tcorb.toNat
      let restart (channel : T8Channel) (step : ℕ) :=
        let counted := t8IncrTcnt channel step shift sound
        (incr - (step : ℤ), { counted.1 with tcnt := 0 }, counted.2)
      if incr = 0 then .inl (channel, sound)
      else if channel.tcr &&& CCLR = CCLR0 ∧ cnt ≤ tcora ∧ tcora < cnt + incr then
        .inr (restart channel (tcora + 1 - cnt))
      else if channel.tcr &&& CCLR = CCLR1 ∧ cnt ≤ tcorb ∧ tcorb < cnt + incr then
        .inr (restart channel (tcorb + 1 - cnt))
      else if 0xff < cnt + incr then
        .inr (restart { channel with tcsr := channel.tcsr ||| OVF } (0x100 - cnt))
      else
        let counted := t8IncrTcnt channel (uint32 incr) shift sound
        .inl ({ counted.1 with tcnt := channel.tcnt + BitVec.ofInt 8 incr },
          counted.2)

theorem t8Loop_eq_runPasses (shift fuel : ℕ) :
    ∀ (incr : ℤ) (state : T8Channel × List (Byte × ℕ)),
      t8Loop shift fuel incr state =
        runPasses (t8Pass shift) (fun state => state.2) fuel
          (incr, state) := by
  induction fuel with
  | zero => exact fun _ _ => rfl
  | succ fuel ih =>
      intro incr state
      obtain ⟨channel, sound⟩ := state
      rw [t8Loop, runPasses, t8Pass]
      simp only [ih]
      split_ifs <;> rfl

theorem t8Pass_lower (shift : ℕ)
    (state state' : ℤ × T8Channel × List (Byte × ℕ))
    (hpass : t8Pass shift state = .inr state') :
    state'.1.toNat < state.1.toNat := by
  obtain ⟨incr, channel, sound⟩ := state
  have hcnt := channel.tcnt.isLt
  rw [t8Pass] at hpass
  simp only at hpass
  split_ifs at hpass <;> cases hpass <;> simp only <;> omega

/-- The `while (incr)` loop terminates from every state. -/
theorem t8Loop_leaves (shift : ℕ) (incr : ℤ)
    (state : T8Channel × List (Byte × ℕ)) :
    Leaves (t8Pass shift) (incr, state)
      (t8Loop shift (incr.toNat + 1) incr state) := by
  rw [t8Loop_eq_runPasses]
  exact runPasses_leaves _ (fun state => state.1.toNat)
    (t8Pass_lower shift) _ _ (Nat.lt_succ_self _)

/-- One tick of channel 0. -/
def T8Core.tick (core : T8Core) : T8Core :=
  let counted := core.counter.tick (core.tcnt.toNat, core.tcsr)
  { core with
    tcnt := BitVec.ofNat 8 counted.1
    tcsr := counted.2
    last := core.last + 2 ^ core.shift }

namespace T8Core

variable {core : T8Core}

theorem catchUp_congr {now now' : ℕ} (hrunning : core.shift ≠ 31)
    (hticks : core.prescaled.ticks core.shift now =
      core.prescaled.ticks core.shift now') :
    core.catchUp now = core.catchUp now' := by
  simp only [catchUp, if_neg hrunning, eager, Prescaled.advance, hticks]

theorem ticks_add_mul (core : T8Core) (n : ℕ) :
    core.prescaled.ticks core.shift (core.last + n * 2 ^ core.shift) = n := by
  change (core.last + n * 2 ^ core.shift - core.last) / 2 ^ core.shift = n
  rw [Nat.add_sub_cancel_left, Nat.mul_div_cancel _ (Nat.two_pow_pos _)]

theorem tick_eq_catchUp (hrunning : core.shift ≠ 31) :
    core.tick = core.catchUp (core.last + 2 ^ core.shift) := by
  have hticks := core.ticks_add_mul 1
  rw [one_mul] at hticks
  simp only [tick, catchUp, if_neg hrunning, eager, Prescaled.advance, hticks,
    one_mul]
  rfl

/-- Single ticks bring the channel up to the cycle of the last one. -/
theorem iterate_tick (hrunning : core.shift ≠ 31) (n : ℕ) :
    T8Core.tick^[n] core =
      core.catchUp (core.last + n * 2 ^ core.shift) := by
  induction n with
  | zero =>
      rw [zero_mul, add_zero]
      exact core.catchUp_last.symm
  | succ n ih =>
      obtain ⟨middle, hmiddle⟩ : ∃ middle, middle =
        core.last + n * 2 ^ core.shift := ⟨_, rfl⟩
      have hshift := shift_catchUp middle core
      have hlast : (core.catchUp middle).last = middle := by
        have hticks := core.ticks_add_mul n
        rw [← hmiddle] at hticks
        rw [catchUp, if_neg hrunning]
        change core.last + core.prescaled.ticks core.shift middle *
          2 ^ core.shift = middle
        rw [hticks, hmiddle]
      rw [Function.iterate_succ_apply', ih, ← hmiddle,
        tick_eq_catchUp (hshift ▸ hrunning), hlast, hshift,
        catchUp_catchUp (by omega) (Nat.le_add_right _ _), hmiddle,
        Nat.succ_mul, Nat.add_assoc]

theorem catchUp_eq_ticks (hrunning : core.shift ≠ 31) (now : ℕ) :
    core.catchUp now =
      T8Core.tick^[core.prescaled.ticks core.shift now] core := by
  rw [iterate_tick hrunning]
  apply catchUp_congr hrunning
  rw [ticks_add_mul]

end T8Core

/-- For all registers, clear modes, prescalers of a running counter and
elapsed times below `2 ^ 31` cycles: an update that is not held back makes
the ticks that are due, and its loop terminates. -/
theorem t8_update_eq_ticks {clock : Clock} {timer : Timer8}
    (hrunning : timer.shift ≠ 31)
    (hlast : timer.ch0.lastCycles ≤ clock.cycles)
    (hgap : clock.cycles < timer.ch0.lastCycles + 2 ^ 31)
    (hgate : timer.ch0.myNextCycle ≤ clock.cycles) :
    (t8UpdateTime clock timer).1.core =
      T8Core.tick^[timer.due clock.cycles] timer.core ∧
    ∃ result, Leaves (t8Pass timer.shift)
      ((timer.due clock.cycles : ℤ),
        { timer.ch0 with
          lastCycles := timer.ch0.lastCycles +
            timer.due clock.cycles * 2 ^ timer.shift }, timer.sound)
      result ∧
      (t8Count clock.cycles timer).ch0 = result.1 := by
  constructor
  · rw [t8UpdateTime, t8CheckNextCycle_core,
      t8Count_core hlast (fun _ => hgap) (fun _ => hgate)]
    have hcore : timer.core.shift ≠ 31 := hrunning
    exact T8Core.catchUp_eq_ticks hcore clock.cycles
  · refine ⟨_, t8Loop_leaves .., ?_⟩
    rw [t8Count_eq_loop hrunning hlast hgap hgate]
    rfl

/-- A timer that counts with the prescaler 3 and is 800 cycles behind. -/
def behindTimer8 : Timer8 where
  ch0 :=
    { tcnt := 250, tcr := 0x09, tcsr := 0x16, tcora := 20, tcorb := 10, out := 0,
      lastCycles := 0, myNextCycle := 0 }
  ch1 :=
    { tcnt := 0, tcr := 0, tcsr := 0x10, tcora := 0xff, tcorb := 0xff, out := 0,
      lastCycles := 0, myNextCycle := 0 }
  stcr := 0xf8
  sound := []

theorem t8_update_eq_ticks_behind :
    (t8UpdateTime ⟨800, 1600000, 1600000⟩ behindTimer8).1.core =
      T8Core.tick^[behindTimer8.due 800] behindTimer8.core :=
  (t8_update_eq_ticks (show behindTimer8.shift ≠ 31 by decide)
    (show behindTimer8.ch0.lastCycles ≤
      (⟨800, 1600000, 1600000⟩ : Clock).cycles by decide)
    (by decide) (by decide)).1

end Eight

end BrickEmu
