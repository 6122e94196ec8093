import Mathlib.Tactic

/-!
# Division by shifting and subtracting

The bits of a dividend are shifted one by one into a remainder, and the divisor
is subtracted where it fits.  The remainder is kept in a register of even size
`2 * half`, so that its top bit may be lost.  The division is exact if and only
if that never happens.  Division digit by digit and signed division by the
magnitudes follow.
-/

namespace BrickEmu.RestoringDivision

structure Partial where
  remainder : ℕ
  quotient : ℕ

def round (half d bit : ℕ) (p : Partial) : Partial :=
  let rem := (2 * p.remainder + bit) % (2 * half)
  if d ≤ rem then ⟨rem - d, 2 * p.quotient + 1⟩ else ⟨rem, 2 * p.quotient⟩

/-- The dividend without its last `w - j` bits. -/
def shifted (n w j : ℕ) : ℕ := n / 2 ^ (w - j)

/-- The last `w` bits of `n` are divided after the others, which are the first
remainder. -/
def rounds (half d n w : ℕ) : ℕ → Partial
  | 0 => ⟨n / 2 ^ w, 0⟩
  | j + 1 => round half d (shifted n w (j + 1) % 2) (rounds half d n w j)

variable {half d n w : ℕ}

theorem shifted_zero (n w : ℕ) : shifted n w 0 = n / 2 ^ w := rfl

theorem shifted_all (n w : ℕ) : shifted n w w = n := by
  rw [shifted, Nat.sub_self, pow_zero, Nat.div_one]

theorem shifted_succ {j : ℕ} (hj : j < w) :
    shifted n w (j + 1) = 2 * shifted n w j + shifted n w (j + 1) % 2 := by
  have hpow : 2 ^ (w - j) = 2 ^ (w - (j + 1)) * 2 := by
    rw [← pow_succ]
    congr 1
    omega
  have hhalf : shifted n w j = shifted n w (j + 1) / 2 := by
    rw [shifted, shifted, hpow, Nat.div_div_eq_div_mul]
  omega

theorem two_mul_div_mod {m bit : ℕ} (hd : 0 < d)
    (hfits : d ≤ 2 * (m % d) + bit) (hbit : bit < 2) :
    (2 * m + bit) / d = 2 * (m / d) + 1 ∧
      (2 * m + bit) % d = 2 * (m % d) + bit - d := by
  have hsplit : 2 * m + bit =
      2 * (m % d) + bit - d + d * (2 * (m / d) + 1) := by
    have hm := Nat.div_add_mod m d
    have hexpand : d * (2 * (m / d) + 1) = 2 * (d * (m / d)) + d := by ring
    omega
  have hlt : 2 * (m % d) + bit - d < d := by
    have hrem := Nat.mod_lt m hd
    omega
  rw [hsplit, Nat.add_mul_div_left _ _ hd, Nat.add_mul_mod_self_left,
    Nat.div_eq_of_lt hlt, Nat.mod_eq_of_lt hlt]
  exact ⟨Nat.zero_add _, rfl⟩

theorem two_mul_div_mod_of_lt {m bit : ℕ}
    (hshort : 2 * (m % d) + bit < d) :
    (2 * m + bit) / d = 2 * (m / d) ∧
      (2 * m + bit) % d = 2 * (m % d) + bit := by
  have hd : 0 < d := by omega
  have hsplit : 2 * m + bit = 2 * (m % d) + bit + d * (2 * (m / d)) := by
    have hm := Nat.div_add_mod m d
    have hexpand : d * (2 * (m / d)) = 2 * (d * (m / d)) := by ring
    omega
  rw [hsplit, Nat.add_mul_div_left _ _ hd, Nat.add_mul_mod_self_left,
    Nat.div_eq_of_lt hshort, Nat.mod_eq_of_lt hshort]
  exact ⟨Nat.zero_add _, rfl⟩

/-- A round that loses no bit keeps quotient and remainder exact. -/
theorem round_exact {m bit : ℕ} (hd : 0 < d) (hbit : bit < 2)
    (hroom : m % d < half) :
    round half d bit ⟨m % d, m / d⟩ =
      ⟨(2 * m + bit) % d, (2 * m + bit) / d⟩ := by
  have hmod : (2 * (m % d) + bit) % (2 * half) = 2 * (m % d) + bit :=
    Nat.mod_eq_of_lt (by omega)
  rw [round]
  simp only [hmod]
  split
  case isTrue hfits =>
    obtain ⟨hquot, hrem⟩ := two_mul_div_mod hd hfits hbit
    rw [hquot, hrem]
  case isFalse hshort =>
    obtain ⟨hquot, hrem⟩ := two_mul_div_mod_of_lt (not_le.mp hshort)
    rw [hquot, hrem]

/-- A round that loses the top bit misses a subtraction. -/
theorem round_overflow {m bit : ℕ} (hd : 0 < d) (hle : d ≤ 2 * half)
    (hbit : bit < 2) (hfull : half ≤ m % d) :
    (round half d bit ⟨m % d, m / d⟩).quotient ≠ (2 * m + bit) / d := by
  have hrem := Nat.mod_lt m hd
  have hmod : (2 * (m % d) + bit) % (2 * half) =
      2 * (m % d) + bit - 2 * half := by
    rw [Nat.mod_eq_sub_mod (by omega), Nat.mod_eq_of_lt (by omega)]
  have hquot : (2 * m + bit) / d = 2 * (m / d) + 1 :=
    (two_mul_div_mod hd (by omega) hbit).1
  rw [round, hquot]
  simp only [hmod]
  rw [if_neg (by omega)]
  show 2 * (m / d) ≠ _
  omega

theorem round_of_lt {bit : ℕ} {p : Partial}
    (h : (2 * p.remainder + bit) % (2 * half) < d) :
    round half d bit p =
      ⟨(2 * p.remainder + bit) % (2 * half), 2 * p.quotient + (1 - 1)⟩ := by
  rw [round]
  simp only [if_neg (not_le.mpr h)]
  rfl

theorem round_of_le {bit : ℕ} {p : Partial}
    (h : d ≤ (2 * p.remainder + bit) % (2 * half)) :
    round half d bit p =
      ⟨(2 * p.remainder + bit) % (2 * half) - d,
        2 * p.quotient + (1 - 0)⟩ := by
  rw [round]
  simp only [if_pos h]

theorem rounds_exact {j : ℕ} (hj : j ≤ w) (hfirst : n / 2 ^ w < d)
    (hroom : ∀ i < j, shifted n w i % d < half) :
    rounds half d n w j = ⟨shifted n w j % d, shifted n w j / d⟩ := by
  induction j with
  | zero =>
      rw [rounds, shifted_zero, Nat.mod_eq_of_lt hfirst,
        Nat.div_eq_of_lt hfirst]
  | succ j ih =>
      have hd : 0 < d := Nat.zero_lt_of_lt hfirst
      have hbit : shifted n w (j + 1) % 2 < 2 := Nat.mod_lt _ (by omega)
      rw [rounds, ih (by omega) fun i hi => hroom i (by omega),
        round_exact hd hbit (hroom j (by omega)), ← shifted_succ hj]

/-- The quotient only grows at its end. -/
theorem round_quotient (half d bit : ℕ) (p : Partial) :
    (round half d bit p).quotient / 2 = p.quotient := by
  rw [round]
  split
  · show (2 * p.quotient + 1) / 2 = p.quotient
    omega
  · show 2 * p.quotient / 2 = p.quotient
    omega

theorem rounds_quotient_add (half d n w j k : ℕ) :
    (rounds half d n w (j + k)).quotient / 2 ^ k =
      (rounds half d n w j).quotient := by
  induction k with
  | zero => rw [Nat.add_zero, pow_zero, Nat.div_one]
  | succ k ih =>
      rw [pow_succ', ← Nat.div_div_eq_div_mul, ← Nat.add_assoc, rounds,
        round_quotient, ih]

theorem div_shifted {j : ℕ} :
    n / d / 2 ^ (w - j) = shifted n w j / d := by
  rw [shifted, Nat.div_div_eq_div_mul, Nat.div_div_eq_div_mul, Nat.mul_comm]

/-- The quotient is exact if and only if no bit of the remainder is lost. -/
theorem rounds_quotient_iff (hfirst : n / 2 ^ w < d) (hle : d ≤ 2 * half) :
    (rounds half d n w w).quotient = n / d ↔
      ∀ j < w, shifted n w j % d < half := by
  constructor
  · intro hquot
    by_contra hlost
    push Not at hlost
    -- the first round that loses a bit
    obtain ⟨hj, hfull⟩ := Nat.find_spec hlost
    have hbefore : ∀ i < Nat.find hlost, shifted n w i % d < half := by
      intro i hi
      by_contra hnot
      exact Nat.find_min hlost hi ⟨by omega, by omega⟩
    generalize Nat.find hlost = j at hj hfull hbefore
    have hd : 0 < d := Nat.zero_lt_of_lt hfirst
    have hbit : shifted n w (j + 1) % 2 < 2 := Nat.mod_lt _ (by omega)
    apply round_overflow hd hle hbit hfull
    rw [← rounds_exact (by omega) hfirst hbefore, ← shifted_succ hj,
      ← div_shifted, ← hquot]
    have hprefix := rounds_quotient_add half d n w (j + 1) (w - (j + 1))
    rw [show j + 1 + (w - (j + 1)) = w by omega] at hprefix
    exact hprefix.symm
  · intro hroom
    rw [rounds_exact le_rfl hfirst hroom, shifted_all]

/-- The remainder of an exact division. -/
theorem rounds_remainder (hfirst : n / 2 ^ w < d)
    (hroom : ∀ j < w, shifted n w j % d < half) :
    (rounds half d n w w).remainder = n % d := by
  rw [rounds_exact le_rfl hfirst hroom, shifted_all]

theorem rounds_quotient_lt (half d n w j : ℕ) :
    (rounds half d n w j).quotient < 2 ^ j := by
  have hprefix := rounds_quotient_add half d n w 0 j
  rw [Nat.zero_add] at hprefix
  exact Nat.lt_of_div_eq_zero (Nat.two_pow_pos j) hprefix

section Register

variable {c₀ j x c quotient : ℕ}

/-- A register of `w` bits with its carry in the course of a division.  The
bits of the dividend leave it at the top and the inverted bits of the quotient
enter at the bottom, behind the carry `c₀` that was there at first. -/
def Register (w n c₀ j x c quotient : ℕ) : Prop :=
  2 * x + c =
    (n % 2 ^ (w - j)) * 2 ^ (j + 1) + c₀ * 2 ^ j + (2 ^ j - 1 - quotient)

theorem Register.first (w n c₀ : ℕ) :
    Register w n c₀ 0 (n % 2 ^ w) c₀ 0 := by
  rw [Register]
  simp only [Nat.sub_zero, Nat.zero_add, pow_one, pow_zero, Nat.mul_one,
    Nat.sub_self, Nat.add_zero]
  omega

/-- A rotation moves the next bit of the dividend out. -/
theorem Register.rotate (h : Register w n c₀ j x c quotient) (hj : j < w)
    (hc₀ : c₀ ≤ 1) :
    (2 * x + c) / 2 ^ w = shifted n w (j + 1) % 2 ∧
      (2 * x + c) % 2 ^ w =
        (n % 2 ^ (w - (j + 1))) * 2 ^ (j + 1) + c₀ * 2 ^ j +
          (2 ^ j - 1 - quotient) := by
  obtain ⟨k, rfl⟩ : ∃ k, w = j + 1 + k := ⟨w - (j + 1), by omega⟩
  rw [Register, show j + 1 + k - j = k + 1 by omega] at h
  rw [shifted, show j + 1 + k - (j + 1) = k by omega]
  have hsplit : n % 2 ^ (k + 1) = 2 ^ k * (n / 2 ^ k % 2) + n % 2 ^ k := by
    rw [pow_succ, Nat.mod_mul, Nat.add_comm]
  have hlow : n % 2 ^ k + 1 ≤ 2 ^ k := Nat.mod_lt _ (Nat.two_pow_pos k)
  have hpos := Nat.two_pow_pos j
  have hrest : (n % 2 ^ k) * 2 ^ (j + 1) + c₀ * 2 ^ j +
      (2 ^ j - 1 - quotient) < 2 ^ (j + 1 + k) := by
    have hcarry : c₀ * 2 ^ j ≤ 2 ^ j := by
      calc c₀ * 2 ^ j ≤ 1 * 2 ^ j := Nat.mul_le_mul_right _ hc₀
        _ = 2 ^ j := Nat.one_mul _
    calc (n % 2 ^ k) * 2 ^ (j + 1) + c₀ * 2 ^ j + (2 ^ j - 1 - quotient)
        < (n % 2 ^ k) * 2 ^ (j + 1) + 2 ^ (j + 1) := by
          rw [pow_succ 2 j]
          omega
      _ = (n % 2 ^ k + 1) * 2 ^ (j + 1) := by ring
      _ ≤ 2 ^ k * 2 ^ (j + 1) := Nat.mul_le_mul_right _ hlow
      _ = 2 ^ (j + 1 + k) := by rw [← pow_add, Nat.add_comm]
  have hvalue : 2 * x + c =
      (n % 2 ^ k) * 2 ^ (j + 1) + c₀ * 2 ^ j + (2 ^ j - 1 - quotient) +
        2 ^ (j + 1 + k) * (n / 2 ^ k % 2) := by
    rw [h, hsplit, pow_add 2 (j + 1) k]
    ring
  rw [hvalue, Nat.add_mul_div_left _ _ (Nat.two_pow_pos _),
    Nat.add_mul_mod_self_left, Nat.div_eq_of_lt hrest, Nat.mod_eq_of_lt hrest,
    Nat.zero_add]
  exact ⟨rfl, rfl⟩

/-- The inverted bit of the quotient comes back as the carry. -/
theorem Register.next (h : Register w n c₀ j x c quotient) (c' : ℕ)
    (hj : j < w) (hc₀ : c₀ ≤ 1) (hquot : quotient < 2 ^ j) (hc' : c' ≤ 1) :
    Register w n c₀ (j + 1) ((2 * x + c) % 2 ^ w) c'
      (2 * quotient + (1 - c')) := by
  rw [Register, (h.rotate hj hc₀).2]
  have hpow : 2 ^ (j + 1) = 2 * 2 ^ j := pow_succ' 2 j
  have hshift : (n % 2 ^ (w - (j + 1))) * 2 ^ (j + 1 + 1) =
      2 * ((n % 2 ^ (w - (j + 1))) * 2 ^ (j + 1)) := by
    rw [pow_succ]
    ring
  have hfirst : c₀ * 2 ^ (j + 1) = 2 * (c₀ * 2 ^ j) := by
    rw [hpow]
    ring
  omega

/-- After all bits a last rotation drops the first carry. -/
theorem Register.last (h : Register w n c₀ w x c quotient)
    (hquot : quotient < 2 ^ w) :
    2 ^ w - 1 - (2 * x + c) % 2 ^ w = quotient := by
  rw [Register, Nat.sub_self, pow_zero, Nat.mod_one, Nat.zero_mul,
    Nat.zero_add] at h
  rw [h, Nat.mul_comm, Nat.mul_add_mod, Nat.mod_eq_of_lt (by omega)]
  omega

end Register

section Digits

variable {base a b : ℕ}

/-- Division digit by digit: the remainder of the upper digits goes on to the
next one. -/
theorem digit_div (base a b : ℕ) (hd : 0 < d) :
    (base * a + b) / d = base * (a / d) + (base * (a % d) + b) / d := by
  have hsplit : base * a + b =
      base * (a % d) + b + d * (base * (a / d)) := by
    conv_lhs => rw [← Nat.div_add_mod a d]
    ring
  rw [hsplit, Nat.add_mul_div_left _ _ hd, Nat.add_comm]

theorem digit_mod (base a b d : ℕ) :
    (base * a + b) % d = (base * (a % d) + b) % d := by
  have hsplit : base * a + b =
      base * (a % d) + b + d * (base * (a / d)) := by
    conv_lhs => rw [← Nat.div_add_mod a d]
    ring
  rw [hsplit, Nat.add_mul_mod_self_left]

theorem digit_lt (hd : 0 < d) (hb : b < base) :
    (base * (a % d) + b) / d < base := by
  have hrem := Nat.mod_lt a hd
  rw [Nat.div_lt_iff_lt_mul hd]
  calc base * (a % d) + b < base * (a % d) + base := by omega
    _ = base * (a % d + 1) := by ring
    _ ≤ base * d := Nat.mul_le_mul_left _ hrem

end Digits

section Signed

variable {w : ℕ} (x y : BitVec w)

/-- A result with its sign. -/
def signed (negative : Bool) (val : BitVec w) : BitVec w :=
  if negative then -val else val

theorem toInt_eq :
    x.toInt = if x.msb then -(x.toInt.natAbs : ℤ) else x.toInt.natAbs := by
  rw [BitVec.msb_eq_toInt]
  by_cases hneg : x.toInt < 0
  · rw [decide_eq_true hneg, if_pos rfl]
    omega
  · rw [decide_eq_false hneg, if_neg Bool.false_ne_true]
    omega

theorem natAbs_of_pl {x : BitVec w} (h : x.msb = false) :
    x.toInt.natAbs = x.toNat := by
  rw [BitVec.toInt_eq_msb_cond, h, if_neg Bool.false_ne_true,
    Int.natAbs_natCast]

theorem natAbs_of_mi {x : BitVec w} (h : x.msb = true) :
    x.toInt.natAbs = (-x).toNat := by
  have hlt := x.isLt
  have hge := BitVec.msb_eq_true_iff_two_mul_ge.mp h
  rw [BitVec.toInt_eq_msb_cond, h, if_pos rfl, BitVec.toNat_neg,
    Nat.mod_eq_of_lt (by omega)]
  omega

theorem natAbs_ne_zero {x : BitVec w} (hx : x ≠ 0) : x.toInt.natAbs ≠ 0 := by
  rw [Int.natAbs_ne_zero, ← BitVec.toInt_zero, Ne, BitVec.toInt_inj]
  exact hx

theorem natAbs_lt : x.toInt.natAbs < 2 ^ w := by
  cases h : x.msb with
  | false => exact natAbs_of_pl h ▸ x.isLt
  | true => exact natAbs_of_mi h ▸ (-x).isLt

theorem signed_ofNat (negative : Bool) (n : ℕ) :
    signed negative (BitVec.ofNat w n) =
      BitVec.ofInt w (if negative then -(n : ℤ) else n) := by
  cases negative with
  | false => exact (BitVec.ofInt_natCast w n).symm
  | true =>
      rw [signed, if_pos rfl, if_pos rfl, BitVec.ofInt_neg,
        BitVec.ofInt_natCast]

/-- A truncated quotient from the magnitudes. -/
theorem ofInt_tdiv :
    BitVec.ofInt w (x.toInt.tdiv y.toInt) =
      signed (x.msb ^^ y.msb)
        (BitVec.ofNat w (x.toInt.natAbs / y.toInt.natAbs)) := by
  rw [signed_ofNat]
  generalize hm : x.toInt.natAbs = m
  generalize hn : y.toInt.natAbs = n
  rw [toInt_eq x, toInt_eq y, hm, hn]
  cases x.msb <;> cases y.msb <;>
    simp [Int.neg_tdiv, Int.tdiv_neg]

theorem ofInt_tmod :
    BitVec.ofInt w (x.toInt.tmod y.toInt) =
      signed x.msb (BitVec.ofNat w (x.toInt.natAbs % y.toInt.natAbs)) := by
  rw [signed_ofNat]
  generalize hm : x.toInt.natAbs = m
  generalize hn : y.toInt.natAbs = n
  rw [toInt_eq x, toInt_eq y, hm, hn]
  cases x.msb <;> cases y.msb <;>
    simp only [Bool.false_eq_true, if_false, if_true, Int.neg_tmod,
      Int.tmod_neg, Int.ofNat_tmod]

theorem signed_inj (negative : Bool) {m n : ℕ} (hm : m < 2 ^ w)
    (hn : n < 2 ^ w) :
    signed negative (BitVec.ofNat w m) = signed negative (BitVec.ofNat w n) ↔
      m = n := by
  constructor
  · intro h
    have hword : BitVec.ofNat w m = BitVec.ofNat w n := by
      cases negative with
      | false => exact h
      | true => exact BitVec.neg_inj.mp h
    have hnat := congrArg BitVec.toNat hword
    rwa [BitVec.toNat_ofNat, BitVec.toNat_ofNat, Nat.mod_eq_of_lt hm,
      Nat.mod_eq_of_lt hn] at hnat
  · rintro rfl
    rfl

end Signed

end BrickEmu.RestoringDivision
