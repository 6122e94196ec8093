import BrickEmu.CompareCounter
import BrickEmu.PrescaledCounter
import BrickEmu.Timer16

/-!
# The 16-bit timer, tick by tick

The free running counter is a compare counter with range `0xffff` that is
cleared at `ocra` when CCLRA is set.  The bulk loop of `t16_update_time`
makes exactly its ticks, so the timer is a lazily evaluated prescaled
counter.
-/

namespace BrickEmu

open Timer16

def t16Counter (ocra ocrb : ℕ) (clear : Bool) : CompareCounter where
  top := 0xffff
  compareA := ocra
  compareB := ocrb
  clearAt := if clear then some ocra else none
  flagA := OCFA
  flagB := OCFB
  overflow := OVF

def clearing (tcsr : Byte) : Bool :=
  tcsr &&& CCLRA ≠ 0

theorem clearing_eq_of_and {status tcsr : Byte}
    (hand : status &&& CCLRA = tcsr &&& CCLRA) :
    clearing status = clearing tcsr := by
  simp only [clearing, hand]

@[simp] theorem clearing_markFlag_OCFA (value low high : ℕ) (tcsr : Byte) :
    clearing (markFlag OCFA value low high tcsr) = clearing tcsr :=
  clearing_eq_of_and (markFlag_and (by decide) value low high tcsr)

@[simp] theorem clearing_markFlag_OCFB (value low high : ℕ) (tcsr : Byte) :
    clearing (markFlag OCFB value low high tcsr) = clearing tcsr :=
  clearing_eq_of_and (markFlag_and (by decide) value low high tcsr)

@[simp] theorem clearing_or_OVF (tcsr : Byte) :
    clearing (tcsr ||| OVF) = clearing tcsr := by
  revert tcsr
  decide

@[simp] theorem clearing_t16Marks (ocra ocrb low high : ℕ) (clear : Bool)
    (tcsr : Byte) :
    clearing ((t16Counter ocra ocrb clear).marks low high tcsr) =
      clearing tcsr := by
  simp [CompareCounter.marks, t16Counter]

theorem clearing_t16Tick (ocra ocrb : ℕ) (clear : Bool)
    (state : ℕ × Byte) :
    clearing ((t16Counter ocra ocrb clear).tick state).2 =
      clearing state.2 := by
  unfold CompareCounter.tick
  split_ifs
  · exact clearing_t16Marks ..
  · exact (clearing_or_OVF _).trans (clearing_t16Marks ..)
  · exact clearing_t16Marks ..

theorem clearing_iterate_t16Tick (ocra ocrb : ℕ) (clear : Bool)
    (n : ℕ) (state : ℕ × Byte) :
    clearing ((t16Counter ocra ocrb clear).tick^[n] state).2 =
      clearing state.2 := by
  induction n with
  | zero => rfl
  | succ n ih =>
      rw [Function.iterate_succ_apply', clearing_t16Tick, ih]

/-- One pass of the loop in terms of the marks it leaves behind. -/
theorem repeatCycle_succ (ocra ocrb fuel frc newfrc : ℕ) (tcsr : Byte) :
    repeatCycle ocra ocrb (fuel + 1) frc newfrc tcsr =
      if (frc ≤ ocra ∧ ocra < newfrc) ∧ clearing tcsr = true then
        repeatCycle ocra ocrb fuel 0 (newfrc - (ocra + 1))
          ((t16Counter ocra ocrb true).marks frc (ocra + 1) tcsr)
      else if 0xffff < newfrc then
        repeatCycle ocra ocrb fuel 0 (newfrc - 0x10000)
          ((t16Counter ocra ocrb false).marks frc newfrc tcsr ||| OVF)
      else (newfrc, (t16Counter ocra ocrb false).marks frc newfrc tcsr) := by
  have hclear : clearing (markFlag OCFA ocra frc newfrc tcsr) =
      clearing tcsr := by simp
  have htest : (markFlag OCFA ocra frc newfrc tcsr &&& CCLRA ≠ 0) ↔
      clearing tcsr = true := by
    rw [← hclear]
    simp [clearing]
  have hunfold : repeatCycle ocra ocrb (fuel + 1) frc newfrc tcsr =
      if (frc ≤ ocra ∧ ocra < newfrc) ∧
          markFlag OCFA ocra frc newfrc tcsr &&& CCLRA ≠ 0 then
        repeatCycle ocra ocrb fuel 0 (newfrc - (ocra + 1))
          (if frc ≤ ocrb ∧ ocrb ≤ ocra then
            markFlag OCFA ocra frc newfrc tcsr ||| OCFB
          else markFlag OCFA ocra frc newfrc tcsr)
      else if 0xffff < newfrc then
        repeatCycle ocra ocrb fuel 0 (newfrc - 0x10000)
          ((t16Counter ocra ocrb false).marks frc newfrc tcsr ||| OVF)
      else (newfrc, (t16Counter ocra ocrb false).marks frc newfrc tcsr) := rfl
  rw [hunfold]
  simp only [htest]
  by_cases hpass : (frc ≤ ocra ∧ ocra < newfrc) ∧ clearing tcsr = true
  · rw [if_pos hpass, if_pos hpass]
    have hfirst : frc ≤ ocra ∧ ocra < ocra + 1 := by omega
    have hsecond : (frc ≤ ocrb ∧ ocrb < ocra + 1) ↔
        (frc ≤ ocrb ∧ ocrb ≤ ocra) := by omega
    simp only [CompareCounter.marks, t16Counter, markFlag, if_pos hpass.1,
      if_pos hfirst, hsecond]
  · rw [if_neg hpass, if_neg hpass]

theorem t16Marks_beyond_top {ocra ocrb newfrc : ℕ} (frc : ℕ) (clear : Bool)
    (tcsr : Byte) (hocra : ocra ≤ 0xffff) (hocrb : ocrb ≤ 0xffff)
    (hnew : 0xffff < newfrc) :
    (t16Counter ocra ocrb clear).marks frc newfrc tcsr =
      (t16Counter ocra ocrb clear).marks frc (0xffff + 1) tcsr := by
  have hA : (frc ≤ ocra ∧ ocra < newfrc) ↔
      (frc ≤ ocra ∧ ocra < 0xffff + 1) := by omega
  have hB : (frc ≤ ocrb ∧ ocrb < newfrc) ↔
      (frc ≤ ocrb ∧ ocrb < 0xffff + 1) := by omega
  simp only [CompareCounter.marks, t16Counter, markFlag_congr OCFA hA,
    markFlag_congr OCFB hB]

/-- The bulk loop makes `newfrc - frc` ticks. -/
theorem repeatCycle_eq_iterate {ocra ocrb : ℕ} (hocra : ocra ≤ 0xffff)
    (hocrb : ocrb ≤ 0xffff) (clear : Bool) (fuel : ℕ) :
    ∀ (frc newfrc : ℕ) (tcsr : Byte), clearing tcsr = clear →
      newfrc < fuel → frc ≤ newfrc → frc ≤ 0xffff →
      repeatCycle ocra ocrb fuel frc newfrc tcsr =
        (t16Counter ocra ocrb clear).tick^[newfrc - frc] (frc, tcsr) := by
  induction fuel with
  | zero => omega
  | succ fuel ih =>
      intro frc newfrc tcsr hclear hfuel hle hfrc
      rw [repeatCycle_succ]
      by_cases hpass : (frc ≤ ocra ∧ ocra < newfrc) ∧ clearing tcsr = true
      · rw [if_pos hpass]
        have htrue : clear = true := hclear ▸ hpass.2
        subst htrue
        have hrest := ih 0 (newfrc - (ocra + 1))
          ((t16Counter ocra ocrb true).marks frc (ocra + 1) tcsr)
          ((clearing_t16Marks ocra ocrb frc (ocra + 1) true tcsr).trans hclear)
          (by omega) (by omega) (by omega)
        rw [hrest, show newfrc - frc =
            (newfrc - (ocra + 1) - 0) + (ocra - frc + 1) by omega,
          Function.iterate_add_apply,
          CompareCounter.iterate_tick_clear tcsr rfl hpass.1.1 hocra]
      · rw [if_neg hpass]
        have hnoClear : ∀ value,
            (t16Counter ocra ocrb clear).clearAt = some value →
              ¬(frc ≤ value ∧ value < newfrc) := by
          intro value hvalue hrange
          cases clear with
          | false => simp [t16Counter] at hvalue
          | true =>
              simp only [t16Counter, if_true, Option.some.injEq] at hvalue
              exact hpass ⟨hvalue ▸ hrange, hclear⟩
        by_cases hover : 0xffff < newfrc
        · rw [if_pos hover]
          have hmarks := t16Marks_beyond_top frc clear tcsr hocra hocrb hover
          have hrest := ih 0 (newfrc - 0x10000)
            ((t16Counter ocra ocrb clear).marks frc newfrc tcsr ||| OVF)
            (by simpa using hclear) (by omega) (by omega) (by omega)
          have hlap : (t16Counter ocra ocrb clear).tick^[0xffff - frc + 1]
              (frc, tcsr) =
                (0, (t16Counter ocra ocrb clear).marks frc (0xffff + 1) tcsr |||
                  OVF) := by
            refine CompareCounter.iterate_tick_overflow tcsr hfrc ?_
            intro value hvalue hrange
            exact hnoClear value hvalue
              ⟨hrange.1, lt_of_le_of_lt hrange.2 hover⟩
          rw [show newfrc - frc =
              (newfrc - 0x10000 - 0) + (0xffff - frc + 1) by omega,
            Function.iterate_add_apply]
          refine hrest.trans ?_
          rw [hmarks]
          exact congrArg _ hlap.symm
        · rw [if_neg hover,
            CompareCounter.iterate_tick_linear tcsr (newfrc - frc)
              (show frc + (newfrc - frc) ≤ 0xffff by omega)
              (by rwa [show frc + (newfrc - frc) = newfrc by omega]),
            show frc + (newfrc - frc) = newfrc by omega]
          rfl

namespace Timer16

def counter (timer : Timer16) : CompareCounter :=
  t16Counter timer.ocra.toNat timer.ocrb.toNat (clearing timer.tcsr)

/-- The counting state of the timer as a lazily evaluated counter. -/
def prescaled (timer : Timer16) : Prescaled (ℕ × Byte) where
  count := (timer.frc.toNat, timer.tcsr)
  last := timer.myLastCycles

/-- The counting state once all ticks up to `now` are accounted for. -/
def eager (now : ℕ) (timer : Timer16) : Prescaled (ℕ × Byte) :=
  timer.prescaled.advance timer.counter.tick (freq timer.tcr) now

theorem freq_pos_le (tcr : Byte) : 1 ≤ freq tcr ∧ freq tcr ≤ 5 := by
  revert tcr
  decide

end Timer16

theorem iterate_t16Tick_le (timer : Timer16) (n : ℕ) :
    (timer.counter.tick^[n] (timer.frc.toNat, timer.tcsr)).1 ≤ 0xffff := by
  have hfrc := timer.frc.isLt
  have hstate : (timer.frc.toNat, timer.tcsr).1 ≤ timer.counter.top := by
    change timer.frc.toNat ≤ 0xffff
    omega
  exact CompareCounter.iterate_tick_le_top hstate n

/-- The timer with all ticks up to `now` accounted for. -/
def Timer16.catchUp (now : ℕ) (timer : Timer16) : Timer16 :=
  { timer with
    frc := BitVec.ofNat 16 (timer.eager now).count.1
    tcsr := (timer.eager now).count.2
    myLastCycles := (timer.eager now).last }

/-- Below `2 ^ 31` elapsed cycles `increment` counts the ticks. -/
theorem t16_increment {cycles : ℕ} {timer : Timer16}
    (hlast : timer.myLastCycles ≤ cycles)
    (hgap : cycles < timer.myLastCycles + 2 ^ 31) :
    int32 ((cycles : ℤ) - timer.myLastCycles) / 2 ^ freq timer.tcr =
      timer.prescaled.ticks (freq timer.tcr) cycles := by
  have helapsed : int32 ((cycles : ℤ) - timer.myLastCycles) =
      ((cycles - timer.myLastCycles : ℕ) : ℤ) := by
    rw [int32_eq_self (by omega) (by omega)]
    omega
  rw [helapsed]
  norm_cast

theorem t16_ticks_lt {cycles : ℕ} {timer : Timer16}
    (hgap : cycles < timer.myLastCycles + 2 ^ 31) :
    timer.prescaled.ticks (freq timer.tcr) cycles * 2 ^ freq timer.tcr <
        2 ^ 31 ∧
      timer.prescaled.ticks (freq timer.tcr) cycles < 2 ^ 31 := by
  have hle : timer.prescaled.ticks (freq timer.tcr) cycles *
      2 ^ freq timer.tcr ≤ cycles - timer.myLastCycles :=
    Nat.div_mul_le_self _ _
  have hpos := Nat.two_pow_pos (freq timer.tcr)
  have := Nat.le_mul_of_pos_right
    (timer.prescaled.ticks (freq timer.tcr) cycles) hpos
  omega

theorem t16_newfrc {cycles : ℕ} {timer : Timer16}
    (hgap : cycles < timer.myLastCycles + 2 ^ 31) :
    uint32 ((timer.frc.toNat : ℤ) +
        timer.prescaled.ticks (freq timer.tcr) cycles) =
      timer.frc.toNat + timer.prescaled.ticks (freq timer.tcr) cycles := by
  have hfrc := timer.frc.isLt
  have hticks := (t16_ticks_lt hgap).2
  rw [← Nat.cast_add, uint32_natCast (by omega)]

/-- Below `2 ^ 31` elapsed cycles the bulk update is the eager count. -/
theorem t16Count_eq_catchUp {cycles : ℕ} {timer : Timer16}
    (hlast : timer.myLastCycles ≤ cycles)
    (hgap : cycles < timer.myLastCycles + 2 ^ 31) :
    t16Count cycles timer = timer.catchUp cycles := by
  have hincrement := t16_increment hlast hgap
  have hnew := t16_newfrc hgap
  have hbound := (t16_ticks_lt hgap).1
  set shift := freq timer.tcr with hshift
  set ticks := timer.prescaled.ticks shift cycles with hticks
  have hfrc := timer.frc.isLt
  have hloop := repeatCycle_eq_iterate (Nat.le_of_lt_succ timer.ocra.isLt)
    (Nat.le_of_lt_succ timer.ocrb.isLt) (clearing timer.tcsr)
    (timer.frc.toNat + ticks + 1) timer.frc.toNat
    (timer.frc.toNat + ticks) timer.tcsr rfl (Nat.lt_succ_self _)
    (Nat.le_add_right _ _) (Nat.le_of_lt_succ hfrc)
  rw [Nat.add_sub_cancel_left] at hloop
  have hlastNew : addToCycle timer.myLastCycles
      (int32 ((ticks : ℤ) * 2 ^ shift)) =
        timer.myLastCycles + ticks * 2 ^ shift := by
    have hcast : ((ticks : ℤ) * 2 ^ shift) =
        ((ticks * 2 ^ shift : ℕ) : ℤ) := by push_cast; rfl
    rw [hcast, int32_eq_self (by omega) (by omega), addToCycle,
      ← Nat.cast_add, uint64_natCast]
  simp only [t16Count, ← hshift, hincrement, hnew, hlastNew, hloop]
  rfl

namespace Timer16

theorem toNat_ofNat_iterate (timer : Timer16) (n : ℕ) :
    (BitVec.ofNat 16
      (timer.counter.tick^[n] (timer.frc.toNat, timer.tcsr)).1).toNat =
        (timer.counter.tick^[n] (timer.frc.toNat, timer.tcsr)).1 := by
  have hle := iterate_t16Tick_le timer n
  rw [BitVec.toNat_ofNat, Nat.mod_eq_of_lt (by omega)]

theorem prescaled_catchUp (now : ℕ) (timer : Timer16) :
    (timer.catchUp now).prescaled = timer.eager now := by
  have hfrc := toNat_ofNat_iterate timer
    (timer.prescaled.ticks (freq timer.tcr) now)
  unfold prescaled catchUp
  simp only
  exact congrArg
    (fun frc => Prescaled.mk (frc, (timer.eager now).count.2)
      (timer.eager now).last) hfrc

theorem counter_catchUp (now : ℕ) (timer : Timer16) :
    (timer.catchUp now).counter = timer.counter := by
  have hclear : clearing (timer.eager now).count.2 = clearing timer.tcsr :=
    clearing_iterate_t16Tick _ _ _ _ _
  simp only [counter, catchUp, hclear]

theorem eager_catchUp {middle now : ℕ} {timer : Timer16}
    (hlast : timer.myLastCycles ≤ middle) (hmiddle : middle ≤ now) :
    (timer.catchUp middle).eager now = timer.eager now := by
  unfold eager
  rw [prescaled_catchUp, counter_catchUp]
  exact Prescaled.advance_advance _ hlast hmiddle

theorem catchUp_catchUp {middle now : ℕ} {timer : Timer16}
    (hlast : timer.myLastCycles ≤ middle) (hmiddle : middle ≤ now) :
    (timer.catchUp middle).catchUp now = timer.catchUp now := by
  have heager := eager_catchUp hlast hmiddle
  unfold catchUp at heager ⊢
  simp only [heager]

theorem catchUp_eq_self {now : ℕ} {timer : Timer16}
    (hnow : now < timer.myLastCycles + 2 ^ freq timer.tcr) :
    timer.catchUp now = timer := by
  have heager : timer.eager now = timer.prescaled :=
    Prescaled.advance_eq_self _ hnow
  cases timer
  simp [catchUp, heager, prescaled]

theorem catchUp_last_le {now : ℕ} {timer : Timer16}
    (hlast : timer.myLastCycles ≤ now) :
    (timer.catchUp now).myLastCycles ≤ now := by
  change (timer.eager now).last ≤ now
  exact Prescaled.advance_last_le timer.counter.tick hlast

theorem lt_catchUp_last {now : ℕ} {timer : Timer16}
    (hlast : timer.myLastCycles ≤ now) :
    now < (timer.catchUp now).myLastCycles + 2 ^ freq timer.tcr := by
  change now < (timer.eager now).last + 2 ^ freq timer.tcr
  exact Prescaled.lt_advance_last timer.counter.tick hlast

theorem le_catchUp_last (now : ℕ) (timer : Timer16) :
    timer.myLastCycles ≤ (timer.catchUp now).myLastCycles := by
  change timer.prescaled.last ≤ (timer.eager now).last
  exact Prescaled.last_le_advance_last timer.counter.tick

end Timer16

end BrickEmu
