import Mathlib.Tactic

/-!
# Lazily evaluated prescaled counters

A hardware counter makes one tick every `2 ^ shift` cycles.  A lazy
implementation keeps the cycle of the last accounted tick and catches up on
demand.  Catching up in several installments is the same as catching up at
once, so the moments at which the implementation chooses to do it cannot be
observed.
-/

namespace BrickEmu

variable {σ : Type*}

structure Prescaled (σ : Type*) where
  count : σ
  last : ℕ

namespace Prescaled

def ticks (shift now : ℕ) (counter : Prescaled σ) : ℕ :=
  (now - counter.last) / 2 ^ shift

def advance (tick : σ → σ) (shift now : ℕ) (counter : Prescaled σ) :
    Prescaled σ where
  count := tick^[counter.ticks shift now] counter.count
  last := counter.last + counter.ticks shift now * 2 ^ shift

variable (tick : σ → σ) {shift now : ℕ} {counter : Prescaled σ}

theorem advance_last_le (hlast : counter.last ≤ now) :
    (counter.advance tick shift now).last ≤ now := by
  have hmul := Nat.div_mul_le_self (now - counter.last) (2 ^ shift)
  simp only [advance, ticks]
  omega

/-- Less than a tick remains. -/
theorem lt_advance_last (hlast : counter.last ≤ now) :
    now < (counter.advance tick shift now).last + 2 ^ shift := by
  have hdiv := Nat.div_add_mod' (now - counter.last) (2 ^ shift)
  have hmod := Nat.mod_lt (now - counter.last) (Nat.two_pow_pos shift)
  simp only [advance, ticks]
  omega

theorem last_le_advance_last :
    counter.last ≤ (counter.advance tick shift now).last := by
  simp [advance]

theorem ticks_eq_zero (hlt : now < counter.last + 2 ^ shift) :
    counter.ticks shift now = 0 := by
  have hpos := Nat.two_pow_pos shift
  exact Nat.div_eq_of_lt (by omega)

theorem advance_eq_self (hlt : now < counter.last + 2 ^ shift) :
    counter.advance tick shift now = counter := by
  cases counter
  simp [advance, ticks_eq_zero hlt]

theorem ticks_split {middle : ℕ} (hlast : counter.last ≤ middle)
    (hmiddle : middle ≤ now) :
    counter.ticks shift middle +
        (counter.advance tick shift middle).ticks shift now =
      counter.ticks shift now := by
  have hle : counter.ticks shift middle ≤ counter.ticks shift now :=
    Nat.div_le_div_right (by omega)
  have hrest : (counter.advance tick shift middle).ticks shift now =
      counter.ticks shift now - counter.ticks shift middle := by
    unfold ticks advance
    simp only [ticks]
    rw [← Nat.sub_mul_div]
    congr 1
    rw [Nat.mul_comm (2 ^ shift)]
    omega
  omega

/-- Catching up at an intermediate moment is unobservable later. -/
theorem advance_advance {middle : ℕ} (hlast : counter.last ≤ middle)
    (hmiddle : middle ≤ now) :
    (counter.advance tick shift middle).advance tick shift now =
      counter.advance tick shift now := by
  have hsplit : counter.ticks shift middle +
      (counter.advance tick shift middle).ticks shift now =
        counter.ticks shift now := ticks_split tick hlast hmiddle
  have hcount :
      tick^[(counter.advance tick shift middle).ticks shift now]
          (counter.advance tick shift middle).count =
        tick^[counter.ticks shift now] counter.count := by
    rw [← hsplit, Nat.add_comm, Function.iterate_add_apply]
    rfl
  have hlastEq : (counter.advance tick shift middle).last +
        (counter.advance tick shift middle).ticks shift now * 2 ^ shift =
      counter.last + counter.ticks shift now * 2 ^ shift := by
    rw [← hsplit, Nat.add_mul, ← Nat.add_assoc]
    rfl
  unfold advance at *
  simp only [mk.injEq]
  exact ⟨hcount, hlastEq⟩

end Prescaled

end BrickEmu
