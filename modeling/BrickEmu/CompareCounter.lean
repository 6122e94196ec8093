import Mathlib.Tactic

/-!
# Counters with two compare registers

One tick of a hardware counter: leaving a compare value sets the flag of that
register, leaving the clearing value restarts the counter at zero, and leaving
`top` overflows.  Between a restart and the next one the counter simply counts
up, which is what bulk updates exploit.
-/

namespace BrickEmu

structure CompareCounter where
  top : ℕ
  compareA : ℕ
  compareB : ℕ
  clearAt : Option ℕ
  flagA : BitVec 8
  flagB : BitVec 8
  overflow : BitVec 8

/-- Sets `flag` when the counter leaves `value` on its way from `low` to
`high`. -/
def markFlag (flag : BitVec 8) (value low high : ℕ) (status : BitVec 8) :
    BitVec 8 :=
  if low ≤ value ∧ value < high then status ||| flag else status

theorem markFlag_self (flag : BitVec 8) (value low : ℕ) (status : BitVec 8) :
    markFlag flag value low low status = status := by
  rw [markFlag, if_neg (by omega)]

theorem markFlag_congr (flag : BitVec 8) {value low high low' high' : ℕ}
    (hiff : (low ≤ value ∧ value < high) ↔ (low' ≤ value ∧ value < high'))
    (status : BitVec 8) :
    markFlag flag value low high status =
      markFlag flag value low' high' status :=
  if_congr hiff rfl rfl

theorem markFlag_comm (flag other : BitVec 8)
    (value low high value' low' high' : ℕ) (status : BitVec 8) :
    markFlag flag value low high (markFlag other value' low' high' status) =
      markFlag other value' low' high'
        (markFlag flag value low high status) := by
  unfold markFlag
  split_ifs
  · rw [BitVec.or_assoc, BitVec.or_comm other flag, ← BitVec.or_assoc]
  all_goals rfl

theorem markFlag_markFlag (flag : BitVec 8) (value : ℕ) {low middle high : ℕ}
    (hlow : low ≤ middle) (hhigh : middle ≤ high) (status : BitVec 8) :
    markFlag flag value middle high (markFlag flag value low middle status) =
      markFlag flag value low high status := by
  have hsplit : (low ≤ value ∧ value < high) ↔
      (low ≤ value ∧ value < middle) ∨ (middle ≤ value ∧ value < high) := by
    omega
  unfold markFlag
  by_cases hfirst : low ≤ value ∧ value < middle
  · rw [if_pos hfirst, if_pos (hsplit.mpr (Or.inl hfirst)),
      if_neg (by omega)]
  · by_cases hsecond : middle ≤ value ∧ value < high
    · rw [if_neg hfirst, if_pos hsecond, if_pos (hsplit.mpr (Or.inr hsecond))]
    · rw [if_neg hfirst, if_neg hsecond, if_neg (by omega)]

/-- A bit that the flag does not touch is kept. -/
theorem markFlag_and {flag mask : BitVec 8} (hmask : flag &&& mask = 0)
    (value low high : ℕ) (status : BitVec 8) :
    markFlag flag value low high status &&& mask = status &&& mask := by
  unfold markFlag
  split_ifs
  · rw [BitVec.and_or_distrib_right, hmask]
    simp
  · rfl

theorem markFlag_or (flag other : BitVec 8) (value low high : ℕ)
    (status : BitVec 8) :
    markFlag flag value low high (status ||| other) =
      markFlag flag value low high status ||| other := by
  unfold markFlag
  split_ifs
  · rw [BitVec.or_assoc, BitVec.or_comm other flag, ← BitVec.or_assoc]
  · rfl

namespace CompareCounter

variable (counter : CompareCounter)

def marks (low high : ℕ) (status : BitVec 8) : BitVec 8 :=
  markFlag counter.flagB counter.compareB low high
    (markFlag counter.flagA counter.compareA low high status)

def tick (state : ℕ × BitVec 8) : ℕ × BitVec 8 :=
  let status := counter.marks state.1 (state.1 + 1) state.2
  if counter.clearAt = some state.1 then (0, status)
  else if state.1 = counter.top then (0, status ||| counter.overflow)
  else (state.1 + 1, status)

variable {counter}

theorem marks_self (low : ℕ) (status : BitVec 8) :
    counter.marks low low status = status := by
  simp only [marks, markFlag_self]

theorem marks_or (low high : ℕ) (status other : BitVec 8) :
    counter.marks low high (status ||| other) =
      counter.marks low high status ||| other := by
  simp only [marks, markFlag_or]

/-- Bits are kept when the marks neither touch them nor are made. -/
theorem marks_and {mask : BitVec 8} {low high : ℕ} (status : BitVec 8)
    (hA : counter.flagA &&& mask = 0 ∨
      ¬(low ≤ counter.compareA ∧ counter.compareA < high))
    (hB : counter.flagB &&& mask = 0 ∨
      ¬(low ≤ counter.compareB ∧ counter.compareB < high)) :
    counter.marks low high status &&& mask = status &&& mask := by
  have hstep : ∀ (flag : BitVec 8) (value : ℕ) (status : BitVec 8),
      (flag &&& mask = 0 ∨ ¬(low ≤ value ∧ value < high)) →
        markFlag flag value low high status &&& mask = status &&& mask := by
    intro flag value status hflag
    rcases hflag with hzero | hout
    · exact markFlag_and hzero value low high status
    · rw [markFlag, if_neg hout]
  rw [marks, hstep _ _ _ hB, hstep _ _ _ hA]

theorem marks_marks {low middle high : ℕ} (hlow : low ≤ middle)
    (hhigh : middle ≤ high) (status : BitVec 8) :
    counter.marks middle high (counter.marks low middle status) =
      counter.marks low high status := by
  unfold marks
  rw [markFlag_comm counter.flagA counter.flagB,
    markFlag_markFlag _ _ hlow hhigh, markFlag_markFlag _ _ hlow hhigh]

/-- Ticks that neither clear nor overflow count up linearly. -/
theorem iterate_tick_linear {count : ℕ} (status : BitVec 8) (n : ℕ)
    (htop : count + n ≤ counter.top)
    (hclear : ∀ value, counter.clearAt = some value →
      ¬(count ≤ value ∧ value < count + n)) :
    counter.tick^[n] (count, status) =
      (count + n, counter.marks count (count + n) status) := by
  induction n with
  | zero => simp [marks_self]
  | succ n ih =>
      have hprefix : ∀ value, counter.clearAt = some value →
          ¬(count ≤ value ∧ value < count + n) := by
        intro value hvalue hrange
        exact hclear value hvalue (by omega)
      have hno : counter.clearAt ≠ some (count + n) := by
        intro hvalue
        exact hclear _ hvalue (by omega)
      rw [Function.iterate_succ_apply', ih (by omega) hprefix]
      simp only [tick]
      rw [if_neg hno, if_neg (by omega), Nat.add_assoc,
        marks_marks (by omega) (by omega)]

theorem iterate_tick_clear {count value : ℕ} (status : BitVec 8)
    (hvalue : counter.clearAt = some value) (hcount : count ≤ value)
    (htop : value ≤ counter.top) :
    counter.tick^[value - count + 1] (count, status) =
      (0, counter.marks count (value + 1) status) := by
  have hbefore : ∀ other, counter.clearAt = some other →
      ¬(count ≤ other ∧ other < count + (value - count)) := by
    intro other hother
    rw [hvalue, Option.some.injEq] at hother
    omega
  have hreach : count + (value - count) = value := by omega
  rw [Function.iterate_succ_apply',
    iterate_tick_linear status _ (by omega) hbefore, hreach]
  simp only [tick]
  rw [if_pos hvalue, marks_marks hcount (Nat.le_succ value)]

theorem iterate_tick_overflow {count : ℕ} (status : BitVec 8)
    (hcount : count ≤ counter.top)
    (hclear : ∀ value, counter.clearAt = some value →
      ¬(count ≤ value ∧ value ≤ counter.top)) :
    counter.tick^[counter.top - count + 1] (count, status) =
      (0, counter.marks count (counter.top + 1) status |||
        counter.overflow) := by
  have hbefore : ∀ value, counter.clearAt = some value →
      ¬(count ≤ value ∧ value < count + (counter.top - count)) := by
    intro value hvalue hrange
    exact hclear value hvalue (by omega)
  have hno : counter.clearAt ≠ some counter.top := by
    intro hvalue
    exact hclear _ hvalue (by omega)
  have hreach : count + (counter.top - count) = counter.top := by omega
  rw [Function.iterate_succ_apply',
    iterate_tick_linear status _ (by omega) hbefore, hreach]
  simp only [tick]
  rw [if_neg hno, if_pos trivial, marks_marks hcount (Nat.le_succ _)]

/-- A counter that has not passed its clearing value stays at or below it
and never overflows; bits that its marks cannot touch are kept. -/
theorem iterate_tick_confined {mask : BitVec 8} {value : ℕ}
    (state : ℕ × BitVec 8) (hvalue : counter.clearAt = some value)
    (hstate : state.1 ≤ value) (htop : value ≤ counter.top)
    (hA : counter.flagA &&& mask = 0 ∨ value < counter.compareA)
    (hB : counter.flagB &&& mask = 0 ∨ value < counter.compareB) (n : ℕ) :
    (counter.tick^[n] state).1 ≤ value ∧
      (counter.tick^[n] state).2 &&& mask = state.2 &&& mask := by
  induction n with
  | zero => exact ⟨hstate, rfl⟩
  | succ n ih =>
      rw [Function.iterate_succ_apply']
      obtain ⟨hcount, hmask⟩ := ih
      set before := counter.tick^[n] state
      have hmarks : counter.marks before.1 (before.1 + 1) before.2 &&& mask =
          state.2 &&& mask := by
        rw [marks_and _ (hA.imp_right (by omega)) (hB.imp_right (by omega)),
          hmask]
      simp only [tick, hvalue, Option.some.injEq]
      by_cases hclear : value = before.1
      · rw [if_pos hclear]
        exact ⟨Nat.zero_le value, hmarks⟩
      · rw [if_neg hclear, if_neg (by omega)]
        exact ⟨by simp only; omega, hmarks⟩

/-- Bits that no flag touches are kept by every tick. -/
theorem iterate_tick_and {mask : BitVec 8}
    (hA : counter.flagA &&& mask = 0) (hB : counter.flagB &&& mask = 0)
    (hoverflow : counter.overflow &&& mask = 0) (state : ℕ × BitVec 8)
    (n : ℕ) :
    (counter.tick^[n] state).2 &&& mask = state.2 &&& mask := by
  induction n with
  | zero => rfl
  | succ n ih =>
      rw [Function.iterate_succ_apply', ← ih]
      set before := counter.tick^[n] state
      have hmarks : counter.marks before.1 (before.1 + 1) before.2 &&& mask =
          before.2 &&& mask := marks_and before.2 (Or.inl hA) (Or.inl hB)
      unfold tick
      split_ifs
      · exact hmarks
      · rw [BitVec.and_or_distrib_right, hoverflow, hmarks]
        simp
      · exact hmarks

theorem tick_le_top {state : ℕ × BitVec 8} (hstate : state.1 ≤ counter.top) :
    (counter.tick state).1 ≤ counter.top := by
  unfold tick
  split_ifs <;> simp only <;> omega

/-- Ticks keep the counter within its range. -/
theorem iterate_tick_le_top {state : ℕ × BitVec 8}
    (hstate : state.1 ≤ counter.top) (n : ℕ) :
    (counter.tick^[n] state).1 ≤ counter.top := by
  induction n with
  | zero => exact hstate
  | succ n ih =>
      rw [Function.iterate_succ_apply']
      exact tick_le_top ih

end CompareCounter

end BrickEmu
