import Mathlib.Tactic

/-!
# Fixed-width integers of the host

Registers are bit vectors.  Counters that are only added to are natural
numbers, and the casts between widths are written out: `int32` and `uint32`
are the conversions to 32 bits, `uint64` is the conversion of a difference to
an unsigned 64-bit count.  A 64-bit count is taken before it reaches
`2 ^ 64`, so only a negative difference wraps.
-/

namespace BrickEmu

abbrev Byte := BitVec 8

abbrev Word := BitVec 16

def int32 (x : ℤ) : ℤ :=
  (x + 2 ^ 31) % 2 ^ 32 - 2 ^ 31

def uint32 (x : ℤ) : ℕ :=
  (x % 2 ^ 32).toNat

def uint64 (x : ℤ) : ℕ :=
  if 0 ≤ x then x.toNat else (x + 2 ^ 64).toNat

theorem int32_eq_self {x : ℤ} (hlow : -2 ^ 31 ≤ x) (hhigh : x < 2 ^ 31) :
    int32 x = x := by
  unfold int32
  omega

theorem uint32_natCast {n : ℕ} (hn : n < 2 ^ 32) : uint32 n = n := by
  unfold uint32
  omega

@[simp] theorem uint64_natCast (n : ℕ) : uint64 n = n := by
  simp [uint64]

theorem uint64_eq_toNat {x : ℤ} (hx : 0 ≤ x) : uint64 x = x.toNat := by
  simp [uint64, hx]

theorem uint64_sub_of_le {a b : ℕ} (hle : b ≤ a) :
    uint64 ((a : ℤ) - b) = a - b := by
  rw [uint64_eq_toNat (by omega)]
  omega

section Masks

/-- A bit of a byte as a mask. -/
theorem and_mask (v : Byte) {mask : Byte} (i : ℕ)
    (hmask : mask = BitVec.twoPow 8 i) :
    v &&& mask = if v.getLsbD i then mask else 0 := by
  rw [hmask, BitVec.and_twoPow]
  rfl

theorem and_mask_eq_zero (v : Byte) {mask : Byte} (i : ℕ) (hi : i < 8)
    (hmask : mask = BitVec.twoPow 8 i) :
    v &&& mask = 0 ↔ v.getLsbD i = false := by
  have hne : mask ≠ 0 := by
    rw [hmask]
    interval_cases i <;> decide
  rw [and_mask v i hmask]
  cases v.getLsbD i
  · simp
  · simpa using hne

end Masks

end BrickEmu
