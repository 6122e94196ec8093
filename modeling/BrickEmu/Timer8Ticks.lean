import BrickEmu.CompareCounter
import BrickEmu.PrescaledCounter
import BrickEmu.Timer8

/-!
# Channel 0 of the 8-bit timer, tick by tick

Channel 0 is a compare counter with range `0xff` that is cleared at `tcora`
or `tcorb` as CCLR selects.  The `while (incr)` loop of `t8_update_time`
makes exactly its ticks.  The gate `myNextCycle`, the output pin and the
sound do not influence the count, so the results are stated about the
remaining registers, the core of the channel.
-/

namespace BrickEmu

open Timer8

def t8Counter (tcr tcora tcorb : Byte) : CompareCounter where
  top := 0xff
  compareA := tcora.toNat
  compareB := tcorb.toNat
  clearAt :=
    if tcr &&& CCLR = CCLR0 then some tcora.toNat
    else if tcr &&& CCLR = CCLR1 then some tcorb.toNat
    else none
  flagA := CMFA
  flagB := CMFB
  overflow := OVF

def T8Channel.counter (channel : T8Channel) : CompareCounter :=
  t8Counter channel.tcr channel.tcora channel.tcorb

def T8Channel.count (channel : T8Channel) : ℕ × Byte :=
  (channel.tcnt.toNat, channel.tcsr)

theorem t8IncrTcnt_channel (channel : T8Channel) {incr : ℕ} (shift : ℕ)
    (sound : List (Byte × ℕ))
    (hincr : channel.tcnt.toNat + incr < 2 ^ 32) :
    (t8IncrTcnt channel incr shift sound).1 =
      { channel with
        tcsr := channel.counter.marks channel.tcnt.toNat
          (channel.tcnt.toNat + incr) channel.tcsr
        out := (t8IncrTcnt channel incr shift sound).1.out } := by
  have hsum : uint32 ((channel.tcnt.toNat : ℤ) + incr) =
      channel.tcnt.toNat + incr := by
    rw [← Nat.cast_add, uint32_natCast hincr]
  have htcsr : (t8IncrTcnt channel incr shift sound).1.tcsr =
      channel.counter.marks channel.tcnt.toNat
        (channel.tcnt.toNat + incr) channel.tcsr := by
    simp only [t8IncrTcnt, hsum]
    rfl
  rw [← htcsr]
  rfl

/-- What the counting loop leaves behind: the ticks in `tcnt` and `tcsr`,
and every other register except the output pin unchanged. -/
structure T8Counted (channel result : T8Channel) (n : ℕ) : Prop where
  count : result.count = channel.counter.tick^[n] channel.count
  tcr : result.tcr = channel.tcr
  tcora : result.tcora = channel.tcora
  tcorb : result.tcorb = channel.tcorb
  lastCycles : result.lastCycles = channel.lastCycles

theorem T8Counted.zero (channel : T8Channel) :
    T8Counted channel channel 0 := by
  constructor <;> rfl

theorem T8Counted.trans {channel middle result : T8Channel} {m n : ℕ}
    (hfirst : T8Counted channel middle m)
    (hsecond : T8Counted middle result n) :
    T8Counted channel result (m + n) where
  count := by
    have hcounter : middle.counter = channel.counter := by
      simp only [T8Channel.counter, hfirst.tcr, hfirst.tcora, hfirst.tcorb]
    rw [hsecond.count, hfirst.count, hcounter,
      ← Function.iterate_add_apply, Nat.add_comm]
  tcr := hsecond.tcr.trans hfirst.tcr
  tcora := hsecond.tcora.trans hfirst.tcora
  tcorb := hsecond.tcorb.trans hfirst.tcorb
  lastCycles := hsecond.lastCycles.trans hfirst.lastCycles

/-- A pass of the loop that ends at a clearing compare match. -/
theorem t8Counted_clear (channel : T8Channel) {value : ℕ} (shift : ℕ)
    (sound : List (Byte × ℕ))
    (hvalue : channel.counter.clearAt = some value)
    (hcount : channel.tcnt.toNat ≤ value) (htop : value ≤ 0xff) :
    T8Counted channel
      { (t8IncrTcnt channel (value + 1 - channel.tcnt.toNat) shift
          sound).1 with tcnt := 0 }
      (value + 1 - channel.tcnt.toNat) := by
  have hstep : channel.tcnt.toNat + (value + 1 - channel.tcnt.toNat) =
      value + 1 := by omega
  rw [t8IncrTcnt_channel channel shift sound (by omega)]
  constructor
  · rw [show value + 1 - channel.tcnt.toNat =
      value - channel.tcnt.toNat + 1 by omega]
    have hticks := CompareCounter.iterate_tick_clear channel.tcsr hvalue
      hcount htop
    refine Eq.trans ?_ hticks.symm
    simp only [T8Channel.count]
    rw [show channel.tcnt.toNat + (value - channel.tcnt.toNat + 1) =
      value + 1 by omega]
    rfl
  all_goals rfl

/-- A pass of the loop that ends at an overflow. -/
theorem t8Counted_overflow (channel : T8Channel) (shift : ℕ)
    (sound : List (Byte × ℕ))
    (hclear : ∀ value, channel.counter.clearAt = some value →
      ¬(channel.tcnt.toNat ≤ value ∧ value ≤ 0xff)) :
    T8Counted channel
      { (t8IncrTcnt { channel with tcsr := channel.tcsr ||| OVF }
          (0x100 - channel.tcnt.toNat) shift sound).1 with tcnt := 0 }
      (0x100 - channel.tcnt.toNat) := by
  have hcnt := channel.tcnt.isLt
  rw [t8IncrTcnt_channel { channel with tcsr := channel.tcsr ||| OVF } shift
    sound (by simp only; omega)]
  constructor
  · rw [show 0x100 - channel.tcnt.toNat =
      0xff - channel.tcnt.toNat + 1 by omega]
    have hticks := CompareCounter.iterate_tick_overflow channel.tcsr
      (show channel.tcnt.toNat ≤ 0xff by omega) hclear
    refine Eq.trans ?_ hticks.symm
    simp only [T8Channel.count, CompareCounter.marks_or]
    rw [show channel.tcnt.toNat + (0xff - channel.tcnt.toNat + 1) =
      0xff + 1 by omega]
    rfl
  all_goals rfl

/-- The last pass of the loop, which stays within the range. -/
theorem t8Counted_linear (channel : T8Channel) {n : ℕ} (shift : ℕ)
    (sound : List (Byte × ℕ)) (htop : channel.tcnt.toNat + n ≤ 0xff)
    (hclear : ∀ value, channel.counter.clearAt = some value →
      ¬(channel.tcnt.toNat ≤ value ∧ value < channel.tcnt.toNat + n)) :
    T8Counted channel
      { (t8IncrTcnt channel n shift sound).1 with
        tcnt := channel.tcnt + BitVec.ofInt 8 n } n := by
  rw [t8IncrTcnt_channel channel shift sound (by omega)]
  constructor
  · have hticks := CompareCounter.iterate_tick_linear channel.tcsr n htop
      hclear
    refine Eq.trans ?_ hticks.symm
    have hcnt : (channel.tcnt + BitVec.ofInt 8 n).toNat =
        channel.tcnt.toNat + n := by
      rw [BitVec.ofInt_natCast, BitVec.toNat_add, BitVec.toNat_ofNat]
      omega
    simp only [T8Channel.count, hcnt]
  all_goals rfl

/-- The counting loop makes `n` ticks. -/
theorem t8Loop_counted (shift fuel : ℕ) :
    ∀ (n : ℕ) (channel : T8Channel) (sound : List (Byte × ℕ)), n < fuel →
      n < 2 ^ 31 →
      T8Counted channel (t8Loop shift fuel n (channel, sound)).1 n := by
  induction fuel with
  | zero => omega
  | succ fuel ih =>
      intro n channel sound hfuel hbound
      have hcnt := channel.tcnt.isLt
      have htcora := channel.tcora.isLt
      have htcorb := channel.tcorb.isLt
      have hrest : ∀ (step : ℕ) (next : T8Channel) (sound : List (Byte × ℕ)),
          0 < step → step ≤ n → T8Counted channel next step →
          T8Counted channel
            (t8Loop shift fuel ((n : ℤ) - step) (next, sound)).1 n := by
        intro step next sound hpos hle hcounted
        have hcast : ((n : ℤ) - step) = ((n - step : ℕ) : ℤ) := by omega
        rw [hcast]
        have htail := ih (n - step) next sound (by omega) (by omega)
        have hjoin := hcounted.trans htail
        rwa [Nat.add_sub_cancel' hle] at hjoin
      simp only [t8Loop, Nat.cast_eq_zero]
      by_cases hzero : n = 0
      · rw [if_pos hzero, hzero]
        exact T8Counted.zero channel
      rw [if_neg hzero]
      by_cases hmatchA : channel.tcr &&& CCLR = CCLR0 ∧
          channel.tcnt.toNat ≤ channel.tcora.toNat ∧
            (channel.tcora.toNat : ℤ) < channel.tcnt.toNat + n
      · rw [if_pos hmatchA]
        refine hrest _ _ _ (by omega) (by omega) ?_
        refine t8Counted_clear channel shift sound ?_ hmatchA.2.1 (by omega)
        simp only [T8Channel.counter, t8Counter, if_pos hmatchA.1]
      rw [if_neg hmatchA]
      by_cases hmatchB : channel.tcr &&& CCLR = CCLR1 ∧
          channel.tcnt.toNat ≤ channel.tcorb.toNat ∧
            (channel.tcorb.toNat : ℤ) < channel.tcnt.toNat + n
      · rw [if_pos hmatchB]
        have hother : ¬channel.tcr &&& CCLR = CCLR0 := by
          rw [hmatchB.1]
          decide
        refine hrest _ _ _ (by omega) (by omega) ?_
        refine t8Counted_clear channel shift sound ?_ hmatchB.2.1 (by omega)
        simp only [T8Channel.counter, t8Counter, if_neg hother,
          if_pos hmatchB.1]
      rw [if_neg hmatchB]
      have hclear : ∀ value, channel.counter.clearAt = some value →
          ¬(channel.tcnt.toNat ≤ value ∧ value < channel.tcnt.toNat + n) := by
        intro value hvalue hrange
        simp only [T8Channel.counter, t8Counter] at hvalue
        split_ifs at hvalue with hmodeA hmodeB
        · rw [Option.some.injEq] at hvalue
          exact hmatchA ⟨hmodeA, by omega, by omega⟩
        · rw [Option.some.injEq] at hvalue
          exact hmatchB ⟨hmodeB, by omega, by omega⟩
      by_cases hover : (0xff : ℤ) < channel.tcnt.toNat + n
      · rw [if_pos hover]
        refine hrest _ _ _ (by omega) (by omega) ?_
        refine t8Counted_overflow channel shift sound ?_
        intro value hvalue hrange
        exact hclear value hvalue (by omega)
      · rw [if_neg hover, uint32_natCast (by omega)]
        exact t8Counted_linear channel shift sound (by omega) hclear

/-- The registers of channel 0 that decide its count. -/
structure T8Core where
  tcnt : Byte
  tcr : Byte
  tcsr : Byte
  tcora : Byte
  tcorb : Byte
  stcr : Byte
  last : ℕ

def Timer8.core (timer : Timer8) : T8Core where
  tcnt := timer.ch0.tcnt
  tcr := timer.ch0.tcr
  tcsr := timer.ch0.tcsr
  tcora := timer.ch0.tcora
  tcorb := timer.ch0.tcorb
  stcr := timer.stcr
  last := timer.ch0.lastCycles

namespace T8Core

def shift (core : T8Core) : ℕ :=
  freq ((core.tcr &&& 7) ||| ((core.stcr &&& 1) <<< 3)).toNat

def counter (core : T8Core) : CompareCounter :=
  t8Counter core.tcr core.tcora core.tcorb

def prescaled (core : T8Core) : Prescaled (ℕ × Byte) where
  count := (core.tcnt.toNat, core.tcsr)
  last := core.last

/-- The counting state once all ticks up to `now` are accounted for. -/
def eager (now : ℕ) (core : T8Core) : Prescaled (ℕ × Byte) :=
  core.prescaled.advance core.counter.tick core.shift now

/-- The channel brought up to date: a stopped counter only moves its
reference point. -/
def catchUp (now : ℕ) (core : T8Core) : T8Core :=
  if core.shift = 31 then { core with last := now }
  else
    { core with
      tcnt := BitVec.ofNat 8 (core.eager now).count.1
      tcsr := (core.eager now).count.2
      last := (core.eager now).last }

theorem shift_le {core : T8Core} (hrunning : core.shift ≠ 31) :
    1 ≤ core.shift ∧ core.shift ≤ 10 := by
  have hfreq : ∀ n, freq n ≠ 31 → 1 ≤ freq n ∧ freq n ≤ 10 := by
    intro n
    unfold freq
    split <;> simp
  exact hfreq _ hrunning

theorem iterate_tick_le (core : T8Core) (n : ℕ) :
    (core.counter.tick^[n] (core.tcnt.toNat, core.tcsr)).1 ≤ 0xff := by
  have hcnt := core.tcnt.isLt
  have hstate : (core.tcnt.toNat, core.tcsr).1 ≤ core.counter.top := by
    change core.tcnt.toNat ≤ 0xff
    omega
  exact CompareCounter.iterate_tick_le_top hstate n

end T8Core

@[simp] theorem t8CheckNextCycle_core (timer : Timer8) (clock : Clock) :
    (t8CheckNextCycle timer clock).1.core = timer.core := by
  unfold t8CheckNextCycle
  split_ifs <;> rfl

/-- The ticks of channel 0 that are due at a cycle. -/
def Timer8.due (cycles : ℕ) (timer : Timer8) : ℕ :=
  timer.core.prescaled.ticks timer.shift cycles

theorem Timer8.due_mul_le (cycles : ℕ) (timer : Timer8) :
    timer.due cycles * 2 ^ timer.shift ≤ cycles - timer.ch0.lastCycles :=
  Nat.div_mul_le_self _ _

theorem Timer8.due_lt {cycles : ℕ} {timer : Timer8}
    (hgap : cycles < timer.ch0.lastCycles + 2 ^ 31) :
    timer.due cycles < 2 ^ 31 := by
  have hle := timer.due_mul_le cycles
  have := Nat.le_mul_of_pos_right (timer.due cycles)
    (Nat.two_pow_pos timer.shift)
  omega

/-- Below `2 ^ 31` elapsed cycles an update that passes its gate runs the
loop over the ticks that are due. -/
theorem t8Count_eq_loop {cycles : ℕ} {timer : Timer8}
    (hrunning : timer.shift ≠ 31)
    (hlast : timer.ch0.lastCycles ≤ cycles)
    (hgap : cycles < timer.ch0.lastCycles + 2 ^ 31)
    (hgate : timer.ch0.myNextCycle ≤ cycles) :
    let counted := t8Loop timer.shift (timer.due cycles + 1)
      (timer.due cycles)
      ({ timer.ch0 with
        lastCycles :=
          timer.ch0.lastCycles + timer.due cycles * 2 ^ timer.shift },
        timer.sound)
    t8Count cycles timer =
      { timer with ch0 := counted.1, sound := counted.2 } := by
  intro counted
  have hle := timer.due_mul_le cycles
  have hbound := timer.due_lt hgap
  have hincr : int32 ((uint64 ((cycles : ℤ) - timer.ch0.lastCycles) /
      2 ^ timer.shift : ℕ) : ℤ) = timer.due cycles := by
    rw [uint64_sub_of_le hlast]
    change int32 (timer.due cycles : ℤ) = timer.due cycles
    exact int32_eq_self (by omega) (by omega)
  have hlastNew : uint64 ((timer.ch0.lastCycles : ℤ) +
      int32 ((timer.due cycles : ℤ) * 2 ^ timer.shift)) =
        timer.ch0.lastCycles + timer.due cycles * 2 ^ timer.shift := by
    have hcast : ((timer.due cycles : ℤ) * 2 ^ timer.shift) =
        ((timer.due cycles * 2 ^ timer.shift : ℕ) : ℤ) := by push_cast; rfl
    rw [hcast, int32_eq_self (by omega) (by omega), ← Nat.cast_add,
      uint64_natCast]
  simp only [t8Count, if_neg hrunning, if_neg (not_lt.mpr hgate), hincr,
    hlastNew, Int.toNat_natCast]
  rfl

/-- Below `2 ^ 31` elapsed cycles an update that passes its gate brings the
channel up to date. -/
theorem t8Count_core {cycles : ℕ} {timer : Timer8}
    (hlast : timer.ch0.lastCycles ≤ cycles)
    (hgap : timer.shift ≠ 31 → cycles < timer.ch0.lastCycles + 2 ^ 31)
    (hgate : timer.shift ≠ 31 → timer.ch0.myNextCycle ≤ cycles) :
    (t8Count cycles timer).core = timer.core.catchUp cycles := by
  by_cases hstopped : timer.shift = 31
  · have hcore : timer.core.shift = 31 := hstopped
    simp only [t8Count, if_pos hstopped, T8Core.catchUp, if_pos hcore]
    rfl
  have hcore : timer.core.shift ≠ 31 := hstopped
  have hbound := timer.due_lt (hgap hstopped)
  have hcount := t8Count_eq_loop hstopped hlast (hgap hstopped)
    (hgate hstopped)
  set ticks := timer.due cycles
  have hloop := t8Loop_counted timer.shift (ticks + 1) ticks
    { timer.ch0 with
      lastCycles := timer.ch0.lastCycles + ticks * 2 ^ timer.shift }
    timer.sound (Nat.lt_succ_self _) hbound
  simp only [hcount, T8Core.catchUp, if_neg hcore]
  set result := (t8Loop timer.shift (ticks + 1) ticks
    ({ timer.ch0 with
      lastCycles := timer.ch0.lastCycles + ticks * 2 ^ timer.shift },
      timer.sound)).1 with hresult
  have hcount : (result.tcnt.toNat, result.tcsr) =
      (timer.core.eager cycles).count := hloop.count
  have htcnt : result.tcnt =
      BitVec.ofNat 8 (timer.core.eager cycles).count.1 := by
    rw [← hcount]
    simp
  have htcsr : result.tcsr = (timer.core.eager cycles).count.2 := by
    rw [← hcount]
  unfold Timer8.core
  simp only [T8Core.mk.injEq]
  exact ⟨htcnt, hloop.tcr, htcsr, hloop.tcora, hloop.tcorb, trivial,
    hloop.lastCycles⟩

/-- A gated update leaves the channel alone. -/
theorem t8Count_eq_self {cycles : ℕ} {timer : Timer8}
    (hrunning : timer.shift ≠ 31)
    (hgate : cycles < timer.ch0.myNextCycle) :
    t8Count cycles timer = timer := by
  simp only [t8Count, if_neg hrunning, if_pos hgate]

namespace T8Core

theorem toNat_ofNat_iterate (core : T8Core) (n : ℕ) :
    (BitVec.ofNat 8
      (core.counter.tick^[n] (core.tcnt.toNat, core.tcsr)).1).toNat =
        (core.counter.tick^[n] (core.tcnt.toNat, core.tcsr)).1 := by
  have hle := iterate_tick_le core n
  rw [BitVec.toNat_ofNat, Nat.mod_eq_of_lt (by omega)]

theorem shift_catchUp (now : ℕ) (core : T8Core) :
    (core.catchUp now).shift = core.shift := by
  unfold catchUp
  split_ifs <;> rfl

theorem prescaled_catchUp (now : ℕ) {core : T8Core}
    (hrunning : core.shift ≠ 31) :
    (core.catchUp now).prescaled = core.eager now := by
  have htcnt := toNat_ofNat_iterate core
    (core.prescaled.ticks core.shift now)
  simp only [catchUp, if_neg hrunning, prescaled]
  exact congrArg
    (fun tcnt => Prescaled.mk (tcnt, (core.eager now).count.2)
      (core.eager now).last) htcnt

theorem catchUp_catchUp {middle now : ℕ} {core : T8Core}
    (hlast : core.last ≤ middle) (hmiddle : middle ≤ now) :
    (core.catchUp middle).catchUp now = core.catchUp now := by
  have hshift := shift_catchUp middle core
  by_cases hstopped : core.shift = 31
  · have hstop : (core.catchUp middle).shift = 31 := hshift.trans hstopped
    rw [catchUp, if_pos hstop]
    simp only [catchUp, if_pos hstopped]
  · have heager : (core.catchUp middle).eager now = core.eager now := by
      have hcounter : (core.catchUp middle).counter = core.counter := by
        simp only [catchUp, if_neg hstopped]
        rfl
      simp only [eager, prescaled_catchUp middle hstopped, hcounter, hshift]
      exact Prescaled.advance_advance _ hlast hmiddle
    have hunfold : (core.catchUp middle).catchUp now =
        { core.catchUp middle with
          tcnt := BitVec.ofNat 8 ((core.catchUp middle).eager now).count.1
          tcsr := ((core.catchUp middle).eager now).count.2
          last := ((core.catchUp middle).eager now).last } :=
      if_neg (hshift ▸ hstopped)
    rw [hunfold, heager]
    simp only [catchUp, if_neg hstopped]

theorem catchUp_eq_self {now : ℕ} {core : T8Core}
    (hrunning : core.shift ≠ 31) (hnow : now < core.last + 2 ^ core.shift) :
    core.catchUp now = core := by
  have heager : core.eager now = core.prescaled :=
    Prescaled.advance_eq_self _ hnow
  cases core
  simp [catchUp, heager, prescaled, hrunning]

theorem catchUp_last (core : T8Core) : core.catchUp core.last = core := by
  by_cases hstopped : core.shift = 31
  · simp only [catchUp, if_pos hstopped]
  · exact catchUp_eq_self hstopped
      (Nat.lt_add_of_pos_right (Nat.two_pow_pos _))

theorem catchUp_last_le {now : ℕ} {core : T8Core} (hlast : core.last ≤ now) :
    (core.catchUp now).last ≤ now := by
  by_cases hstopped : core.shift = 31
  · simp only [catchUp, if_pos hstopped, le_refl]
  · simp only [catchUp, if_neg hstopped]
    exact Prescaled.advance_last_le core.counter.tick hlast

theorem le_catchUp_last {now : ℕ} {core : T8Core} (hlast : core.last ≤ now) :
    core.last ≤ (core.catchUp now).last := by
  by_cases hstopped : core.shift = 31
  · simp only [catchUp, if_pos hstopped]
    exact hlast
  · simp only [catchUp, if_neg hstopped]
    change core.prescaled.last ≤ (core.eager now).last
    exact Prescaled.last_le_advance_last core.counter.tick

end T8Core

theorem t8Force0_core {clock : Clock} {timer : Timer8}
    (hlast : timer.ch0.lastCycles ≤ clock.cycles)
    (hgap : timer.shift ≠ 31 →
      clock.cycles < timer.ch0.lastCycles + 2 ^ 31) :
    (t8Force0 clock timer).1.core = timer.core.catchUp clock.cycles := by
  simp only [t8Force0, t8UpdateTime, t8CheckNextCycle_core]
  exact t8Count_core hlast hgap (fun _ => le_rfl)

@[simp] theorem t8CheckNextCycle_cycles (timer : Timer8) (clock : Clock) :
    (t8CheckNextCycle timer clock).2.cycles = clock.cycles := by
  simp only [t8CheckNextCycle]
  split_ifs <;> rfl

@[simp] theorem t8Force0_cycles (timer : Timer8) (clock : Clock) :
    (t8Force0 clock timer).2.cycles = clock.cycles := by
  simp only [t8Force0, t8UpdateTime, t8CheckNextCycle_cycles]

end BrickEmu
