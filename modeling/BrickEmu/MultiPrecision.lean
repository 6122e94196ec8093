import Mathlib.Tactic

/-!
# Arithmetic digit by digit

Numbers are extended by a digit above those already computed.  With
`modulus` numbers below the new digit, a sum or difference is a rest below
`modulus` and a multiple of it, so comparisons of the whole are comparisons
of the multiples.
-/

namespace BrickEmu.MultiPrecision

/-- The number in two's complement. -/
def signed (modulus a : ℕ) : ℤ :=
  if 2 * a < modulus then a else a - modulus

/-- The value fits into two's complement. -/
def Fits (modulus : ℕ) (v : ℤ) : Prop :=
  -(modulus : ℤ) ≤ 2 * v ∧ 2 * v < modulus

instance (modulus : ℕ) (v : ℤ) : Decidable (Fits modulus v) :=
  inferInstanceAs (Decidable (_ ∧ _))

theorem add_mul_lt_mul_iff {modulus r t s : ℤ} (hlow : 0 ≤ r)
    (hhigh : r < modulus) : r + modulus * t < modulus * s ↔ t < s := by
  constructor
  · intro hlt
    by_contra hle
    have hmul := mul_le_mul_of_nonneg_left (not_lt.mp hle)
      (show 0 ≤ modulus by omega)
    omega
  · intro hlt
    have hmul := mul_le_mul_of_nonneg_left (Int.add_one_le_of_lt hlt)
      (show 0 ≤ modulus by omega)
    rw [mul_add, mul_one] at hmul
    omega

variable {modulus radix : ℕ} {r t : ℤ}

theorem mul_le_add_mul_iff (hlow : 0 ≤ r) (hhigh : r < modulus) (s : ℤ) :
    modulus * s ≤ r + modulus * t ↔ s ≤ t := by
  rw [← not_lt, add_mul_lt_mul_iff hlow hhigh, not_lt]

/-- The upper digit decides about the overflow. -/
theorem fits_iff (heven : radix % 2 = 0) (hlow : 0 ≤ r)
    (hhigh : r < modulus) :
    Fits (modulus * radix) (r + modulus * t) ↔ Fits radix t := by
  obtain ⟨half, hhalf⟩ : ∃ half : ℕ, radix = 2 * half := ⟨radix / 2, by omega⟩
  have hupper : r + modulus * t < modulus * half ↔ t < half :=
    add_mul_lt_mul_iff hlow hhigh
  have hlower : (modulus : ℤ) * -half ≤ r + modulus * t ↔ -half ≤ t :=
    mul_le_add_mul_iff hlow hhigh _
  have hmodulus : ((modulus * radix : ℕ) : ℤ) = 2 * (modulus * half) := by
    rw [hhalf]
    push_cast
    ring
  rw [mul_neg] at hlower
  rw [Fits, Fits, hmodulus, hhalf]
  push_cast
  constructor
  · rintro ⟨hle, hlt⟩
    have hle' := hlower.mp (by omega)
    have hlt' := hupper.mp (by omega)
    omega
  · rintro ⟨hle, hlt⟩
    have hle' := hlower.mpr (by omega)
    have hlt' := hupper.mpr (by omega)
    omega

/-- The upper digit decides about the sign. -/
theorem signed_add_mul (heven : radix % 2 = 0) {a x : ℕ}
    (ha : a < modulus) :
    signed (modulus * radix) (a + modulus * x) =
      a + modulus * signed radix x := by
  obtain ⟨half, hhalf⟩ : ∃ half : ℕ, radix = 2 * half := ⟨radix / 2, by omega⟩
  have hupper : (a : ℤ) + modulus * x < modulus * half ↔ (x : ℤ) < half :=
    add_mul_lt_mul_iff (by omega) (by omega)
  have hiff : 2 * (a + modulus * x) < modulus * radix ↔ 2 * x < radix := by
    have hmul : modulus * radix = 2 * (modulus * half) := by
      rw [hhalf]
      ring
    rw [hmul]
    constructor
    · intro hlt
      have := hupper.mp (by exact_mod_cast by omega)
      omega
    · intro hlt
      have := hupper.mpr (by omega)
      norm_cast at this
      omega
  rw [signed, signed]
  split_ifs
  · push_cast
    ring
  · omega
  · omega
  · push_cast
    ring

/-- The rest and the digits of a number. -/
theorem add_mul_mod {r t : ℕ} (hr : r < modulus) :
    (r + modulus * t) % (modulus * radix) = r + modulus * (t % radix) := by
  have hpos : 0 < modulus := by omega
  rw [Nat.mod_mul, Nat.add_mul_mod_self_left, Nat.mod_eq_of_lt hr,
    Nat.add_mul_div_left _ _ hpos, Nat.div_eq_of_lt hr, Nat.zero_add]

end BrickEmu.MultiPrecision
