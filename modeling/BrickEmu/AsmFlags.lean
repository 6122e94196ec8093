import BrickEmu.AsmCore

/-!
# The flags of the assembler core

The C code computes the flags from the bits of the operands and the result.
The core takes them from the host, for words from the operation on the upper
bytes.
-/

namespace BrickEmu

open CarryBits

namespace HostFlags

/-- All flags of the host in the places of the processor. -/
def ccr (flags : HostFlags) : Byte :=
  iflags2ccr (flags.word &&& 0x8d1)

variable (flags : HostFlags)

theorem iflags2ccr_all :
    flags.ccr =
      (if flags.zero then 0x04 else 0) ||| (if flags.sign then 0x08 else 0) |||
        (if flags.overflow then 0x02 else 0) |||
        (if flags.aux then 0x20 else 0) |||
        (if flags.carry then 0x01 else 0) := by
  obtain ⟨carry, aux, zero, sign, overflow⟩ := flags
  cases carry <;> cases aux <;> cases zero <;> cases sign <;>
    cases overflow <;> rfl

theorem iflags2ccr_without_zero :
    iflags2ccr (flags.word &&& 0x891) =
      { flags with zero := false }.ccr := by
  obtain ⟨carry, aux, zero, sign, overflow⟩ := flags
  cases carry <;> cases aux <;> cases zero <;> cases sign <;>
    cases overflow <;> rfl

theorem iflags2ccr_result :
    iflags2ccr (flags.word &&& 0x8c0) =
      { flags with carry := false, aux := false }.ccr := by
  obtain ⟨carry, aux, zero, sign, overflow⟩ := flags
  cases carry <;> cases aux <;> cases zero <;> cases sign <;>
    cases overflow <;> rfl

theorem sign_zero :
    (flags.word.setWidth 8 >>> 4) &&& 12 =
      (if flags.zero then 0x04 else 0) |||
        (if flags.sign then (0x08 : Byte) else 0) := by
  obtain ⟨carry, aux, zero, sign, overflow⟩ := flags
  cases carry <;> cases aux <;> cases zero <;> cases sign <;>
    cases overflow <;> rfl

end HostFlags

section Bits

variable {w : ℕ}

theorem sign_mask (hw : 8 ≤ w) (dest : BitVec w) :
    (dest >>> (w - 4)).setWidth 8 &&& 0x08 =
      if dest.msb then (0x08 : Byte) else 0 := by
  have hmask : (0x08 : Byte) = BitVec.twoPow 8 3 := rfl
  rw [and_mask _ 3 hmask, BitVec.getLsbD_setWidth,
    BitVec.getLsbD_ushiftRight, BitVec.msb_eq_getLsbD_last,
    show w - 4 + 3 = w - 1 by omega]
  simp

theorem setNZ_eq (hw : 8 ≤ w) (dest : BitVec w) (ccr : Byte) :
    setNZ dest ccr =
      ccr ||| ((if decide (dest = 0) then 0x04 else 0) |||
        if dest.msb then 0x08 else 0) := by
  rw [setNZ, sign_mask hw]
  by_cases hzero : dest = 0
  · cases dest.msb <;> simp [hzero, BitVec.or_assoc]
  · have hzero : ¬dest = 0#w := hzero
    simp [hzero]

/-- The flags of a move. -/
theorem asmSetNZ_eq (hw : 8 ≤ w) (dest : BitVec w) (ccr : Byte) :
    asmSetNZ (logicFlags dest) (ccr &&& 0xf1) = setNZV dest ccr := by
  rw [asmSetNZ, HostFlags.sign_zero, setNZV, setNZ_eq hw]
  rfl

/-- The flags of the C code, with the carries read from their bits. -/
def bitFlags (sub : Bool) (oval src dest : BitVec w) : HostFlags where
  carry :=
    (if sub then src ^^^ ((src ^^^ dest) &&& (dest ^^^ oval))
      else src ^^^ ((src ^^^ oval) &&& (dest ^^^ oval))).getLsbD (w - 1)
  aux := (src ^^^ dest ^^^ oval).getLsbD (w - 4)
  zero := dest = 0
  sign := dest.msb
  overflow :=
    (if sub then (src ^^^ oval) &&& (dest ^^^ oval)
      else (src ^^^ dest) &&& (dest ^^^ oval)).getLsbD (w - 1)

theorem halfCarry_eq (hw : w = 8 ∨ w = 16) (carries : BitVec w) :
    halfCarry carries =
      if carries.getLsbD (w - 4) then (0x20 : Byte) else 0 := by
  have hmask : (0x20 : Byte) = BitVec.twoPow 8 5 := rfl
  rw [halfCarry, and_mask _ 5 hmask]
  rcases hw with rfl | rfl
  · simp
  · simp

theorem setHNZVC_eq (hw : w = 8 ∨ w = 16) (sub : Bool)
    (oval src dest : BitVec w) (ccr : Byte) :
    setHNZVC sub oval src dest ccr =
      (ccr &&& 0xd0) ||| (bitFlags sub oval src dest).ccr := by
  have hle : 8 ≤ w := by omega
  have hoverflow : ∀ v : BitVec w, (v >>> (w - 2)).setWidth 8 &&& 0x02 =
      if v.getLsbD (w - 1) then (0x02 : Byte) else 0 := by
    intro v
    have hmask : (0x02 : Byte) = BitVec.twoPow 8 1 := rfl
    rw [and_mask _ 1 hmask, BitVec.getLsbD_setWidth,
      BitVec.getLsbD_ushiftRight, show w - 2 + 1 = w - 1 by omega]
    simp
  have hcarry : ∀ v : BitVec w, (v >>> (w - 1)).setWidth 8 &&& 0x01 =
      if v.getLsbD (w - 1) then (0x01 : Byte) else 0 := by
    intro v
    have hmask : (0x01 : Byte) = BitVec.twoPow 8 0 := rfl
    rw [and_mask _ 0 hmask, BitVec.getLsbD_setWidth,
      BitVec.getLsbD_ushiftRight, Nat.add_zero]
    simp
  rw [setHNZVC, setNZ_eq hle, halfCarry_eq hw, hoverflow, hcarry,
    HostFlags.iflags2ccr_all]
  simp only [bitFlags, BitVec.or_assoc]
  rfl

end Bits

section Carries

variable {w : ℕ} {x y z : BitVec w} {c : Bool}

/-- The overflow of an addition shows in the signs. -/
theorem overflow_add :
    ((y ^^^ z) &&& (z ^^^ x)).getLsbD (w - 1) =
      decide (x.msb = y.msb ∧ z.msb ≠ x.msb) := by
  rw [BitVec.getLsbD_and, BitVec.getLsbD_xor, BitVec.getLsbD_xor,
    ← BitVec.msb_eq_getLsbD_last, ← BitVec.msb_eq_getLsbD_last,
    ← BitVec.msb_eq_getLsbD_last]
  cases x.msb <;> cases y.msb <;> cases z.msb <;> rfl

theorem overflow_sub :
    ((y ^^^ x) &&& (z ^^^ x)).getLsbD (w - 1) =
      decide (x.msb ≠ y.msb ∧ z.msb ≠ x.msb) := by
  rw [BitVec.getLsbD_and, BitVec.getLsbD_xor, BitVec.getLsbD_xor,
    ← BitVec.msb_eq_getLsbD_last, ← BitVec.msb_eq_getLsbD_last,
    ← BitVec.msb_eq_getLsbD_last]
  cases x.msb <;> cases y.msb <;> cases z.msb <;> rfl

/-- The carries of an addition. -/
theorem bitFlags_add (hw : 4 ≤ w) (hz : z = x + y + bit w c) :
    bitFlags false x y z =
      { carry := BitVec.carry w x y c
        aux := BitVec.carry (w - 4) x y c
        zero := z = 0
        sign := z.msb
        overflow := x.msb = y.msb ∧ z.msb ≠ x.msb } := by
  have hcarry := majority_eq_carry (i := w - 1) (by omega) hz
  rw [show w - 1 + 1 = w by omega] at hcarry
  have haux := xor_eq_carry (i := w - 4) (by omega) hz
  simp only [bitFlags, Bool.false_eq_true, if_false, hcarry, haux,
    overflow_add]

/-- The borrows of a subtraction are the carries of the sum back. -/
theorem bitFlags_sub (hw : 4 ≤ w) (hz : z = x - y - bit w c) :
    bitFlags true x y z =
      { carry := x.toNat < y.toNat + c.toNat
        aux := x.toNat % 2 ^ (w - 4) < y.toNat % 2 ^ (w - 4) + c.toNat
        zero := z = 0
        sign := z.msb
        overflow := x.msb ≠ y.msb ∧ z.msb ≠ x.msb } := by
  have hx : x = z + y + bit w c := hz ▸ CarryBits.sub_add_cancel x y c
  have hcarry := majority_eq_carry (i := w - 1) (by omega) hx
  rw [show w - 1 + 1 = w by omega, BitVec.xor_comm x z,
    carry_eq_lt le_rfl (by omega) hx, Nat.mod_eq_of_lt x.isLt,
    Nat.mod_eq_of_lt y.isLt] at hcarry
  have haux := xor_eq_carry (i := w - 4) (by omega) hx
  rw [BitVec.xor_assoc, BitVec.xor_comm x z, ← BitVec.xor_assoc,
    carry_eq_lt (by omega) (by omega) hx] at haux
  simp only [bitFlags, if_true, hcarry, haux, overflow_sub]

/-- The flags of the host after an operation on bytes. -/
theorem bitFlags_adc (x y : Byte) (c : Bool) :
    bitFlags false x y (adc x y c).1 = (adc x y c).2 :=
  bitFlags_add (by omega) rfl

theorem bitFlags_sbb (x y : Byte) (c : Bool) :
    bitFlags true x y (sbb x y c).1 = (sbb x y c).2 :=
  bitFlags_sub (by omega) rfl

end Carries

section Words

/-- The bytes of a word. -/
def highByte (x : Word) : Byte := x.extractLsb' 8 8
def lowByte (x : Word) : Byte := x.extractLsb' 0 8

theorem toNat_highByte (x : Word) : (highByte x).toNat = x.toNat / 256 := by
  have hlt := x.isLt
  rw [highByte, BitVec.extractLsb'_toNat, Nat.shiftRight_eq_div_pow]
  omega

theorem toNat_lowByte (x : Word) : (lowByte x).toNat = x.toNat % 256 := by
  rw [lowByte, BitVec.extractLsb'_toNat, Nat.shiftRight_zero]

theorem toNat_append (high low : Byte) :
    (high ++ low : Word).toNat = 256 * high.toNat + low.toNat := by
  rw [BitVec.toNat_append, Nat.shiftLeft_eq, Nat.mul_comm]
  exact (Nat.two_pow_add_eq_or_of_lt low.isLt _).symm

theorem msb_append (high low : Byte) : (high ++ low : Word).msb = high.msb := by
  rw [BitVec.msb_append]
  simp

theorem highByte_append_lowByte (x : Word) : highByte x ++ lowByte x = x := by
  apply BitVec.eq_of_toNat_eq
  rw [toNat_append, toNat_highByte, toNat_lowByte]
  omega

theorem setReg16_reg16 (nr : BitVec 3) (val : Word) (m : Machine) :
    (m.setReg16 nr val).reg16 nr = val := by
  have hne : ∀ nr : BitVec 3, (0#1 ++ nr : BitVec 4) ≠ 1#1 ++ nr := by decide
  have hhigh : (m.setReg16 nr val).reg (0#1 ++ nr) = highByte val := by
    rw [Machine.setReg16, Machine.setReg, Machine.setReg]
    simp only
    rw [Function.update_of_ne (hne nr), Function.update_self]
    rfl
  have hlow : (m.setReg16 nr val).reg (1#1 ++ nr) = lowByte val := by
    rw [Machine.setReg16, Machine.setReg]
    exact Function.update_self _ _ _
  rw [Machine.reg16, hhigh, hlow, highByte_append_lowByte]

theorem msb_highByte (x : Word) : (highByte x).msb = x.msb := by
  conv_rhs => rw [← highByte_append_lowByte x, msb_append]

theorem toNat_adc (x y : Byte) (c : Bool) :
    (adc x y c).1.toNat = (x.toNat + y.toNat + c.toNat) % 256 := by
  rw [adc, BitVec.toNat_add, BitVec.toNat_add, toNat_bit (by omega)]
  omega

theorem toNat_sbb (x y : Byte) (c : Bool) :
    (sbb x y c).1.toNat = (x.toNat + 512 - y.toNat - c.toNat) % 256 := by
  have hx := x.isLt
  have hy := y.isLt
  have hc := Bool.toNat_le c
  rw [sbb, BitVec.toNat_sub, BitVec.toNat_sub, toNat_bit (by omega)]
  omega

variable (x y : Word)

theorem adc_low_carry : (adc (lowByte x) (lowByte y) false).2.carry =
    decide (256 ≤ x.toNat % 256 + y.toNat % 256) := by
  rw [← toNat_lowByte, ← toNat_lowByte]
  exact BitVec.carry_width

theorem sbb_low_carry : (sbb (lowByte x) (lowByte y) false).2.carry =
    decide (x.toNat % 256 < y.toNat % 256) := by
  rw [← toNat_lowByte, ← toNat_lowByte]
  rfl

/-- The sum of two words byte by byte. -/
theorem adc_word :
    (adc (highByte x) (highByte y)
        (adc (lowByte x) (lowByte y) false).2.carry).1 ++
      (adc (lowByte x) (lowByte y) false).1 = x + y := by
  apply BitVec.eq_of_toNat_eq
  rw [toNat_append, toNat_adc, toNat_adc, adc_low_carry, toNat_highByte,
    toNat_highByte, toNat_lowByte, toNat_lowByte, BitVec.toNat_add]
  by_cases hover : 256 ≤ x.toNat % 256 + y.toNat % 256
  · simp only [hover, decide_true, Bool.toNat_true, Bool.toNat_false]
    omega
  · simp only [hover, decide_false, Bool.toNat_false]
    omega

/-- The difference of two words byte by byte. -/
theorem sbb_word :
    (sbb (highByte x) (highByte y)
        (sbb (lowByte x) (lowByte y) false).2.carry).1 ++
      (sbb (lowByte x) (lowByte y) false).1 = x - y := by
  have hx := x.isLt
  have hy := y.isLt
  apply BitVec.eq_of_toNat_eq
  rw [toNat_append, toNat_sbb, toNat_sbb, sbb_low_carry, toNat_highByte,
    toNat_highByte, toNat_lowByte, toNat_lowByte, BitVec.toNat_sub]
  by_cases hborrow : x.toNat % 256 < y.toNat % 256
  · simp only [hborrow, decide_true, Bool.toNat_true, Bool.toNat_false]
    omega
  · simp only [hborrow, decide_false, Bool.toNat_false]
    omega

theorem bit_false (w : ℕ) : bit w false = 0 := by
  apply BitVec.eq_of_toNat_eq
  simp [bit]

variable {x y} {c : Bool}

/-- The flags of a word are those of its upper bytes, but for the zero
flag. -/
theorem adc_high (hc : c = decide (256 ≤ x.toNat % 256 + y.toNat % 256))
    (hsign : (adc (highByte x) (highByte y) c).1.msb = (x + y).msb) :
    { (adc (highByte x) (highByte y) c).2 with zero := decide (x + y = 0) } =
      bitFlags false x y (x + y) := by
  have hsum : x + y = x + y + bit 16 false := by
    rw [bit_false]
    exact (BitVec.add_zero _).symm
  have hcarry : BitVec.carry 8 (highByte x) (highByte y) c =
      BitVec.carry 16 x y false := by
    rw [BitVec.carry_width, BitVec.carry_width, decide_eq_decide,
      toNat_highByte, toNat_highByte]
    by_cases hover : 256 ≤ x.toNat % 256 + y.toNat % 256
    · simp only [hc, hover, decide_true, Bool.toNat_true, Bool.toNat_false]
      omega
    · simp only [hc, hover, decide_false, Bool.toNat_false]
      omega
  have haux : BitVec.carry 4 (highByte x) (highByte y) c =
      BitVec.carry (16 - 4) x y false := by
    rw [BitVec.carry, BitVec.carry, decide_eq_decide, toNat_highByte,
      toNat_highByte]
    by_cases hover : 256 ≤ x.toNat % 256 + y.toNat % 256
    · simp only [hc, hover, decide_true, Bool.toNat_true, Bool.toNat_false]
      omega
    · simp only [hc, hover, decide_false, Bool.toNat_false]
      omega
  rw [bitFlags_add (by omega) hsum]
  simp only [adc] at hsign ⊢
  rw [hcarry, haux, hsign, msb_highByte, msb_highByte]

theorem sbb_high (hc : c = decide (x.toNat % 256 < y.toNat % 256))
    (hsign : (sbb (highByte x) (highByte y) c).1.msb = (x - y).msb) :
    { (sbb (highByte x) (highByte y) c).2 with zero := decide (x - y = 0) } =
      bitFlags true x y (x - y) := by
  have hdiff : x - y = x - y - bit 16 false := by
    rw [bit_false]
    exact (BitVec.sub_zero _).symm
  have hcarry : decide ((highByte x).toNat < (highByte y).toNat + c.toNat) =
      decide (x.toNat < y.toNat + false.toNat) := by
    rw [decide_eq_decide, toNat_highByte, toNat_highByte]
    by_cases hborrow : x.toNat % 256 < y.toNat % 256
    · simp only [hc, hborrow, decide_true, Bool.toNat_true, Bool.toNat_false]
      omega
    · simp only [hc, hborrow, decide_false, Bool.toNat_false]
      omega
  have haux : decide ((highByte x).toNat % 16 <
      (highByte y).toNat % 16 + c.toNat) =
        decide (x.toNat % 2 ^ (16 - 4) <
          y.toNat % 2 ^ (16 - 4) + false.toNat) := by
    rw [decide_eq_decide, toNat_highByte, toNat_highByte]
    by_cases hborrow : x.toNat % 256 < y.toNat % 256
    · simp only [hc, hborrow, decide_true, Bool.toNat_true, Bool.toNat_false]
      omega
    · simp only [hc, hborrow, decide_false, Bool.toNat_false]
      omega
  rw [bitFlags_sub (by omega) hdiff]
  simp only [sbb] at hsign ⊢
  rw [hcarry, haux, hsign, msb_highByte, msb_highByte]

end Words

end BrickEmu
