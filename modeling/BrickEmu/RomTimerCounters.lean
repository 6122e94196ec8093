import BrickEmu.RomTimerFrame

/-!
# The counters of the timer interrupt

The three motor counters go down by one with every tick.  The counter of the
receiver does not: the low byte of the difference is stored where the high
byte belongs, and a receive timeout never runs out.
-/

namespace BrickEmu

namespace Rom

/-- The counters of 16 bits that each tick serves. -/
inductive Counter where
  | serialReceiveReset
  | motor0
  | motor1
  | motor2
deriving DecidableEq

namespace Counter

def offset : Counter → Word
  | serialReceiveReset => timerSerialReceiveReset
  | motor0 => timerMotor0
  | motor1 => timerMotor1
  | motor2 => timerMotor2

def value (c : Counter) (timer : Word) (m : Ram) : Word :=
  m.get16 (timer + c.offset)

/-- What a tick makes of the counter. -/
def next : Counter → Word → Word
  | serialReceiveReset, counter =>
      if counter = 0 then 0 else lowByte (counter - 1) ++ lowByte counter
  | _, counter => counted counter

theorem next_motor {c : Counter} (hc : c ≠ serialReceiveReset)
    (counter : Word) : c.next counter = counted counter := by
  cases c with
  | serialReceiveReset => exact absurd rfl hc
  | motor0 => rfl
  | motor1 => rfl
  | motor2 => rfl

theorem next_zero (c : Counter) : c.next 0 = 0 := by
  cases c <;> rfl

/-- The two bytes of the receive counter differ once it has been served. -/
theorem next_receive_ne {counter : Word} (hne : counter ≠ 0) :
    serialReceiveReset.next counter ≠ counter - 1 ∧
      serialReceiveReset.next counter ≠ 0 := by
  have hpos : counter.toNat ≠ 0 := fun h => hne (BitVec.eq_of_toNat_eq h)
  have hlt := counter.isLt
  have hsub : (counter - 1).toNat = counter.toNat - 1 := by
    have hcounted := toNat_counted counter
    rwa [counted, if_neg hne] at hcounted
  have hnext : (serialReceiveReset.next counter).toNat =
      (counter.toNat - 1) % 256 * 256 + counter.toNat % 256 := by
    rw [next, if_neg hne, toNat_append, toNat_lowByte, toNat_lowByte, hsub,
      Nat.mul_comm]
  constructor
  · intro heq
    rw [heq, hsub] at hnext
    omega
  · intro heq
    rw [heq] at hnext
    change 0 = _ at hnext
    omega

end Counter

section Values

variable {timer flags k j : Word} {m m' : Ram}

theorem TimerOnly.value (h : TimerOnly timer flags m m')
    (hapart : Apart timer flags) (c : Counter) :
    c.value timer m' = c.value timer m := by
  apply h.get16
  · apply hapart.counter_not_cell
    cases c <;> decide
  · rw [BitVec.add_assoc]
    apply hapart.counter_not_cell
    cases c <;> decide

theorem SoundTick.value {entry : Option SoundEntry}
    (h : SoundTick timer flags m (entry, m'))
    (hapart : Apart timer flags) (c : Counter) :
    c.value timer m' = c.value timer m := by
  have hcell {a : Word} (ha : a.toNat < 2 ∨ 0x22 ≤ a.toNat ∧ a.toNat < 0x28) :
      m' (timer + a) = m (timer + a) := by
    apply h.of_ne (hapart.counter_not_cell ha)
    exact (hapart.timer_ne (by omega) (by decide) (by decide)).symm
  rw [Counter.value, Counter.value, Ram.get16, Ram.get16, BitVec.add_assoc,
    hcell, hcell]
  · cases c <;> decide
  · cases c <;> decide

theorem get16_set16_other (val : Word)
    (hj : j ≠ k ∧ j ≠ k + 1 ∧ j + 1 ≠ k ∧ j + 1 ≠ k + 1) :
    (m.set16 (timer + k) val).get16 (timer + j) = m.get16 (timer + j) := by
  have hne {a b : Word} (hab : a ≠ b) : timer + a ≠ timer + b :=
    fun h => hab ((BitVec.add_right_inj timer).mp h)
  obtain ⟨hjk, hjsucc, hsucc, hboth⟩ := hj
  rw [Ram.get16, Ram.get16, Ram.set16, BitVec.add_assoc, BitVec.add_assoc,
    Ram.set_of_ne (hne hjsucc), Ram.set_of_ne (hne hjk),
    Ram.set_of_ne (hne hboth), Ram.set_of_ne (hne hsucc)]

theorem tickMotor_self (hapart : Apart timer flags)
    (hp : Pointers timer flags m) (hk : 0x22 ≤ k.toNat ∧ k.toNat < 0x27) :
    (tickMotor timer k m).get16 (timer + k) =
      counted (m.get16 (timer + k)) := by
  have hsucc : (k + 1).toNat = k.toNat + 1 := by
    change (k.toNat + 1) % 65536 = _
    omega
  have honly := tickMotor_only hapart hk.2 hp
  rw [honly.get16, get16_set16]
  · exact hapart.counter_not_cell (by omega)
  · rw [BitVec.add_assoc]
    exact hapart.counter_not_cell (by omega)

theorem tickMotor_other (hapart : Apart timer flags)
    (hp : Pointers timer flags m) (c : Counter) (hk : k.toNat < 0x27)
    (hc : c.offset ≠ k ∧ c.offset ≠ k + 1 ∧ c.offset + 1 ≠ k ∧
      c.offset + 1 ≠ k + 1) :
    c.value timer (tickMotor timer k m) = c.value timer m := by
  rw [(tickMotor_only hapart hk hp).value hapart]
  exact get16_set16_other _ hc

theorem tickReceive_self (m : Ram) :
    (tickReceive timer m).get16 timer =
      Counter.serialReceiveReset.next (m.get16 timer) := by
  rw [tickReceive, Counter.next]
  split_ifs with hzero
  · exact hzero
  · rw [Ram.get16, Ram.set_self, Ram.set_of_ne (succ_ne_self timer)]
    congr 1
    exact BitVec.extractLsb'_append_eq_right.symm

theorem tickReceive_other {c : Counter} (hc : c ≠ .serialReceiveReset)
    (m : Ram) : c.value timer (tickReceive timer m) = c.value timer m := by
  have hne {a : Word} (ha : a ≠ 0) : timer + a ≠ timer := by
    intro heq
    exact ha (BitVec.add_right_eq_self.mp heq)
  rw [Counter.value, Counter.value, Ram.get16, Ram.get16, BitVec.add_assoc,
    tickReceive_of_ne, tickReceive_of_ne]
  · apply hne
    cases c <;> first | exact absurd rfl hc | decide
  · apply hne
    cases c <;> first | exact absurd rfl hc | decide

/-- Each counter is served by its own part. -/
theorem counters_value (hapart : Apart timer flags)
    (hp : Pointers timer flags m) (c : Counter) :
    c.value timer (tickMotors timer (tickReceive timer m)) =
      c.next (c.value timer m) := by
  have hp := tickReceive_pointers hapart hp
  have hp0 : Pointers timer flags
      (tickMotor timer timerMotor0 (tickReceive timer m)) :=
    tickMotor_pointers hapart (by decide) hp
  have hp1 : Pointers timer flags (tickMotor timer timerMotor1
      (tickMotor timer timerMotor0 (tickReceive timer m))) :=
    tickMotor_pointers hapart (by decide) hp0
  rw [tickMotors]
  cases c with
  | serialReceiveReset =>
      rw [tickMotor_other hapart hp1 _ (by decide) (by decide),
        tickMotor_other hapart hp0 _ (by decide) (by decide),
        tickMotor_other hapart hp _ (by decide) (by decide)]
      change (tickReceive timer m).get16 (timer + 0#16) =
        Counter.serialReceiveReset.next (m.get16 (timer + 0#16))
      rw [BitVec.add_zero, tickReceive_self]
  | motor0 =>
      rw [tickMotor_other hapart hp1 _ (by decide) (by decide),
        tickMotor_other hapart hp0 _ (by decide) (by decide)]
      apply (tickMotor_self hapart hp (by decide)).trans
      exact congrArg counted (tickReceive_other (c := .motor0) (by decide) m)
  | motor1 =>
      rw [tickMotor_other hapart hp1 _ (by decide) (by decide)]
      apply (tickMotor_self hapart hp0 (by decide)).trans
      apply congrArg counted
      apply (tickMotor_other hapart hp .motor1 (by decide) (by decide)).trans
      exact tickReceive_other (c := .motor1) (by decide) m
  | motor2 =>
      apply (tickMotor_self hapart hp1 (by decide)).trans
      apply congrArg counted
      apply (tickMotor_other hapart hp0 .motor2 (by decide) (by decide)).trans
      apply (tickMotor_other hapart hp .motor2 (by decide) (by decide)).trans
      exact tickReceive_other (c := .motor2) (by decide) m

theorem ociaHandler_value (hapart : Apart timer flags)
    (hp : Pointers timer flags m) (labels : Labels) (c : Counter) :
    c.value timer (ociaHandler labels m).2 = c.next (c.value timer m) := by
  obtain ⟨start, hstart, hp, hsound⟩ := ociaHandler_tick hapart hp labels
  rw [← hstart.value hapart c, ← counters_value hapart hp c]
  exact hsound.value hapart c

theorem ociaHandler_pointers (hapart : Apart timer flags)
    (hp : Pointers timer flags m) (labels : Labels) :
    Pointers timer flags (ociaHandler labels m).2 := by
  obtain ⟨start, -, hp, hsound⟩ := ociaHandler_tick hapart hp labels
  exact hsound.pointers hapart
    (tickMotors_pointers hapart (tickReceive_pointers hapart hp))

end Values

section Runs

/-- Ticks of the interrupt, and in between whatever leaves the counter and
the pointers alone. -/
inductive Ticks (labels : Labels) (timer flags : Word) (c : Counter) (m : Ram) :
    ℕ → Ram → Prop
  | start : Ticks labels timer flags c m 0 m
  | tick {n : ℕ} {m' : Ram} (h : Ticks labels timer flags c m n m') :
      Ticks labels timer flags c m (n + 1) (ociaHandler labels m').2
  | other {n : ℕ} {m' m'' : Ram} (h : Ticks labels timer flags c m n m')
      (hp : Pointers timer flags m'')
      (hvalue : c.value timer m'' = c.value timer m') :
      Ticks labels timer flags c m n m''

/-- The counter goes down by one with each tick, until it is 0. -/
structure CountsDown (labels : Labels) (timer flags : Word) (c : Counter)
    (m : Ram) : Prop where
  tick : (c.value timer (ociaHandler labels m).2).toNat =
    (c.value timer m).toNat - 1
  run : ∀ n m', Ticks labels timer flags c m n m' →
    (c.value timer m').toNat = (c.value timer m).toNat - n
  zero : ∀ n m', Ticks labels timer flags c m n m' →
    (c.value timer m' = 0 ↔ (c.value timer m).toNat ≤ n)

variable {labels : Labels} {timer flags : Word} {c : Counter} {m m' : Ram}
  {n : ℕ}

namespace Ticks

theorem pointers (h : Ticks labels timer flags c m n m')
    (hapart : Apart timer flags) (hp : Pointers timer flags m) :
    Pointers timer flags m' := by
  induction h with
  | start => exact hp
  | tick _ ih => exact ociaHandler_pointers hapart ih labels
  | other _ hp _ _ => exact hp

/-- The counter only depends on the number of ticks. -/
theorem value_eq (h : Ticks labels timer flags c m n m')
    (hapart : Apart timer flags) (hp : Pointers timer flags m) :
    c.value timer m' = c.next^[n] (c.value timer m) := by
  induction h with
  | start => rfl
  | tick h ih =>
      rw [ociaHandler_value hapart (h.pointers hapart hp) labels c, ih,
        Function.iterate_succ_apply']
  | other _ _ hvalue ih => exact hvalue.trans ih

theorem iterate (n : ℕ) : Ticks labels timer flags c m n
    ((fun m => (ociaHandler labels m).2)^[n] m) := by
  induction n with
  | zero => exact .start
  | succ n ih =>
      rw [Function.iterate_succ_apply']
      exact .tick ih

end Ticks

theorem iterate_counted (counter : Word) (n : ℕ) :
    (counted^[n] counter).toNat = counter.toNat - n := by
  induction n with
  | zero => rfl
  | succ n ih =>
      rw [Function.iterate_succ_apply', toNat_counted, ih, Nat.sub_sub]

/-- A receive counter that is not 0 never becomes 0. -/
theorem iterate_receive_ne {counter : Word} (hne : counter ≠ 0) (n : ℕ) :
    Counter.serialReceiveReset.next^[n] counter ≠ 0 := by
  induction n with
  | zero => exact hne
  | succ n ih =>
      rw [Function.iterate_succ_apply']
      exact (Counter.next_receive_ne ih).2

theorem iterate_next (h : c = .serialReceiveReset → c.value timer m = 0)
    (n : ℕ) :
    (c.next^[n] (c.value timer m)).toNat = (c.value timer m).toNat - n := by
  by_cases hc : c = .serialReceiveReset
  · rw [h hc, Function.iterate_fixed c.next_zero n]
    exact (Nat.zero_sub n).symm
  · have hnext : c.next = counted := funext (Counter.next_motor hc)
    rw [hnext, iterate_counted]

/-- The motor counters count down, the receive counter only stays at 0. -/
theorem countsDown_iff (labels : Labels) (hapart : Apart timer flags)
    (hp : Pointers timer flags m) (c : Counter) :
    CountsDown labels timer flags c m ↔
      (c = .serialReceiveReset → c.value timer m = 0) := by
  constructor
  · rintro h rfl
    by_contra hne
    have htick := h.tick
    rw [ociaHandler_value hapart hp, ← toNat_counted, counted,
      if_neg hne] at htick
    exact (Counter.next_receive_ne hne).1 (BitVec.eq_of_toNat_eq htick)
  · intro h
    have hrun : ∀ n m', Ticks labels timer flags c m n m' →
        (c.value timer m').toNat = (c.value timer m).toNat - n := by
      intro n m' hticks
      rw [hticks.value_eq hapart hp, iterate_next h]
    constructor
    · exact hrun 1 _ (.tick .start)
    · exact hrun
    · intro n m' hticks
      rw [← Nat.sub_eq_zero_iff_le, ← hrun n m' hticks]
      exact BitVec.toNat_inj.symm

/-- The receiver and the timer after `init_timer` with the counters at 0. -/
def receivingRam : Ram :=
  let m : Ram := fun _ => 0
  let m := m.set16 timerStruct romTimerStruct
  let m := m.set16 runHandlerFlags romHandlerStruct
  m.set16 serialTimerStruct romTimerStruct

theorem receivingRam_apart : Apart romTimerStruct romHandlerStruct := by
  constructor <;> decide

theorem receivingRam_restarted :
    Pointers romTimerStruct romHandlerStruct (rxiRestart receivingRam) := by
  constructor <;> decide

theorem countsDown_iff_motor :
    CountsDown ⟨0x36ba, 0, 0, 0, 0⟩ romTimerStruct romHandlerStruct .motor0
      (receivingRam.set16 (romTimerStruct + timerMotor0) 3) :=
  (countsDown_iff _ receivingRam_apart (by constructor <;> decide) _).mpr
    nofun

/-- A byte has been received, and the pause after it has no end. -/
theorem receiveTimeout_never :
    Counter.serialReceiveReset.value romTimerStruct
        (rxiRestart receivingRam) = 30 ∧
      ¬ CountsDown ⟨0x36ba, 0, 0, 0, 0⟩ romTimerStruct romHandlerStruct
        .serialReceiveReset (rxiRestart receivingRam) ∧
      ∀ n m', Ticks ⟨0x36ba, 0, 0, 0, 0⟩ romTimerStruct romHandlerStruct
          .serialReceiveReset (rxiRestart receivingRam) n m' →
        Counter.serialReceiveReset.value romTimerStruct m' ≠ 0 := by
  have hvalue : Counter.serialReceiveReset.value romTimerStruct
      (rxiRestart receivingRam) = 30 := by decide
  have hnever : ∀ n m', Ticks ⟨0x36ba, 0, 0, 0, 0⟩ romTimerStruct
      romHandlerStruct .serialReceiveReset (rxiRestart receivingRam) n m' →
      Counter.serialReceiveReset.value romTimerStruct m' ≠ 0 := by
    intro n m' hticks
    rw [hticks.value_eq receivingRam_apart receivingRam_restarted, hvalue]
    exact iterate_receive_ne (by decide) n
  refine ⟨hvalue, ?_, hnever⟩
  intro h
  have hrun : Ticks ⟨0x36ba, 0, 0, 0, 0⟩ romTimerStruct romHandlerStruct
      .serialReceiveReset (rxiRestart receivingRam) 30 _ := Ticks.iterate 30
  apply hnever 30 _ hrun
  rw [h.zero 30 _ hrun, hvalue]
  decide

end Runs

end Rom

end BrickEmu
