import Mathlib.Tactic

/-!
# Carries by exclusive or

The carry into a bit of a sum is the exclusive or of that bit in both
summands and the sum, and the carry out of it is a majority that can be
computed from the same bits.  The borrows of a difference are the carries of
the sum that undoes it.
-/

namespace BrickEmu.CarryBits

open BitVec

variable {w : ℕ}

/-- A carry as a summand. -/
def bit (w : ℕ) (c : Bool) : BitVec w :=
  (ofBool c).setWidth w

theorem toNat_bit (hw : 0 < w) (c : Bool) : (bit w c).toNat = c.toNat := by
  have hpow : 2 ≤ 2 ^ w := Nat.le_self_pow hw.ne' 2
  rw [bit, toNat_setWidth, toNat_ofBool]
  apply Nat.mod_eq_of_lt
  cases c <;> simp only [Bool.toNat_false, Bool.toNat_true] <;> omega

variable {i : ℕ} {x y z : BitVec w} {c : Bool}

theorem xor_eq_carry (hi : i < w) (hz : z = x + y + bit w c) :
    (y ^^^ z ^^^ x).getLsbD i = carry i x y c := by
  rw [hz, bit, getLsbD_xor, getLsbD_xor, getLsbD_add_add_bool hi]
  cases x.getLsbD i <;> cases y.getLsbD i <;> simp

theorem majority_eq_carry (hi : i < w) (hz : z = x + y + bit w c) :
    (y ^^^ ((y ^^^ x) &&& (z ^^^ x))).getLsbD i = carry (i + 1) x y c := by
  rw [carry_succ, hz, bit, getLsbD_xor, getLsbD_and, getLsbD_xor,
    getLsbD_xor, getLsbD_add_add_bool hi]
  cases x.getLsbD i <;> cases y.getLsbD i <;> cases carry i x y c <;> rfl

/-- The difference with a borrow is undone by a sum with a carry. -/
theorem sub_add_cancel (x y : BitVec w) (c : Bool) :
    x = x - y - bit w c + y + bit w c := by
  rw [BitVec.sub_sub, BitVec.add_assoc, BitVec.sub_add_cancel]

theorem toNat_mod_add (hi : i ≤ w) (hw : 0 < w) (hx : x = z + y + bit w c) :
    x.toNat % 2 ^ i =
      (z.toNat % 2 ^ i + y.toNat % 2 ^ i + c.toNat) % 2 ^ i := by
  have hdvd : 2 ^ i ∣ 2 ^ w := pow_dvd_pow 2 hi
  rw [hx, toNat_add, toNat_add, toNat_bit hw, Nat.mod_mod_of_dvd _ hdvd,
    Nat.add_mod, Nat.mod_mod_of_dvd _ hdvd, ← Nat.add_mod]
  simp only [Nat.add_mod, Nat.mod_mod]

/-- A borrow is a comparison of the lower bits. -/
theorem carry_eq_lt (hi : i ≤ w) (hw : 0 < w) (hx : x = z + y + bit w c) :
    carry i z y c =
      decide (x.toNat % 2 ^ i < y.toNat % 2 ^ i + c.toNat) := by
  have hmod := toNat_mod_add hi hw hx
  have hc : c.toNat ≤ 1 := Bool.toNat_le c
  have hpos : 0 < 2 ^ i := Nat.two_pow_pos i
  have hzlt := Nat.mod_lt z.toNat hpos
  have hylt := Nat.mod_lt y.toNat hpos
  rw [hmod, carry, decide_eq_decide]
  generalize z.toNat % 2 ^ i = a at *
  generalize y.toNat % 2 ^ i = b at *
  generalize 2 ^ i = n at *
  constructor
  · intro hge
    rw [Nat.mod_eq_sub_mod hge, Nat.mod_eq_of_lt (by omega)]
    omega
  · intro hlt
    by_contra hnot
    rw [Nat.mod_eq_of_lt (by omega)] at hlt
    omega

end BrickEmu.CarryBits
