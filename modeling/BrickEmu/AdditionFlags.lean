import BrickEmu.MultiPrecision
import BrickEmu.OperandChain

/-!
# Addition of operands of several bytes

`ADD.B` on the lowest bytes and `ADDX.B` on the others give the sum and the
carry, sign and overflow of the whole.  The zero flag is that of the highest
byte alone: `ADDX` sets it where `SUBX` only clears it.
-/

namespace BrickEmu

open CarryBits MultiPrecision

theorem ccr_getLsbD (flags : HostFlags) :
    flags.ccr.getLsbD 0 = flags.carry ∧ flags.ccr.getLsbD 1 = flags.overflow ∧
      flags.ccr.getLsbD 2 = flags.zero ∧ flags.ccr.getLsbD 3 = flags.sign := by
  obtain ⟨carry, aux, zero, sign, overflow⟩ := flags
  cases carry <;> cases aux <;> cases zero <;> cases sign <;>
    cases overflow <;> decide

/-- The low flags do not depend on the old ones. -/
theorem setHNZVC_getLsbD {w : ℕ} (hw : w = 8 ∨ w = 16) (sub : Bool)
    (oval src dest : BitVec w) (ccr : Byte) :
    let flags := bitFlags sub oval src dest
    (setHNZVC sub oval src dest ccr).getLsbD 0 = flags.carry ∧
      (setHNZVC sub oval src dest ccr).getLsbD 1 = flags.overflow ∧
      (setHNZVC sub oval src dest ccr).getLsbD 2 = flags.zero ∧
      (setHNZVC sub oval src dest ccr).getLsbD 3 = flags.sign := by
  intro flags
  have hflags := ccr_getLsbD flags
  rw [setHNZVC_eq hw]
  simp only [BitVec.getLsbD_or, BitVec.getLsbD_and]
  have hmask : (0xd0 : Byte).getLsbD 0 = false ∧
      (0xd0 : Byte).getLsbD 1 = false ∧ (0xd0 : Byte).getLsbD 2 = false ∧
      (0xd0 : Byte).getLsbD 3 = false := by decide
  obtain ⟨h0, h1, h2, h3⟩ := hmask
  simp only [h0, h1, h2, h3, Bool.and_false, Bool.false_or]
  exact hflags

theorem carry_operand :
    ∀ ccr : Byte, ccr &&& 1 = bit 8 (ccr.getLsbD 0) := by
  decide +kernel

theorem msb_iff (x : Byte) : x.msb = decide (128 ≤ x.toNat) := by
  rw [BitVec.msb_eq_decide]

theorem byte_eq_zero (x : Byte) : x = 0 ↔ x.toNat = 0 := by
  constructor
  · rintro rfl
    rfl
  · exact fun h => BitVec.eq_of_toNat_eq h

theorem signed_byte (x : Byte) :
    signed 256 x.toNat = if x.msb then (x.toNat : ℤ) - 256 else x.toNat := by
  rw [signed, msb_iff]
  by_cases hx : 128 ≤ x.toNat
  · rw [if_neg (by omega), decide_eq_true hx, if_pos rfl]
    rfl
  · rw [if_pos (by omega), decide_eq_false hx, if_neg (by simp)]

/-- The flags of a byte with its carry, by the values of the operands. -/
theorem addition_byte (x y : Byte) (c : Bool) (ccr : Byte) :
    let z := x + y + bit 8 c
    let flags := setHNZVC false x y z ccr
    z.toNat = (x.toNat + y.toNat + c.toNat) % 256 ∧
      flags.getLsbD 0 = decide (256 ≤ x.toNat + y.toNat + c.toNat) ∧
      flags.getLsbD 1 = !decide (Fits 256
        (signed 256 x.toNat + signed 256 y.toNat + c.toNat)) ∧
      flags.getLsbD 2 = decide (z.toNat = 0) ∧
      flags.getLsbD 3 = decide (128 ≤ z.toNat) := by
  intro z flags
  have hz : z.toNat = (x.toNat + y.toNat + c.toNat) % 256 := toNat_adc x y c
  obtain ⟨hcarry, hoverflow, hzero, hsign⟩ :=
    setHNZVC_getLsbD (Or.inl rfl) false x y z ccr
  have hflags := bitFlags_add (by omega) (show z = x + y + bit 8 c from rfl)
  rw [hflags] at hcarry hoverflow hzero hsign
  refine ⟨hz, ?_, ?_, ?_, ?_⟩
  · exact hcarry.trans BitVec.carry_width
  · rw [hoverflow, signed_byte, signed_byte]
    simp only
    have hx := x.isLt
    have hy := y.isLt
    have hc := Bool.toNat_le c
    rw [msb_iff x, msb_iff y, msb_iff z, hz, Bool.eq_iff_iff]
    simp only [decide_eq_true_eq, decide_eq_decide, ne_eq,
      Bool.not_eq_true', decide_eq_false_iff_not, Fits]
    split_ifs <;> omega
  · rw [hzero, decide_eq_decide]
    exact byte_eq_zero z
  · rw [hsign]
    exact msb_iff z

/-- The flags after an addition modulo `modulus`.  The zero flag shows the
highest byte only. -/
structure SumFlags (modulus a b : ℕ) (ccr : Byte) : Prop where
  carry : ccr.getLsbD 0 = decide (modulus ≤ a + b)
  overflow : ccr.getLsbD 1 =
    !decide (Fits modulus (signed modulus a + signed modulus b))
  zero : ccr.getLsbD 2 = decide (256 * ((a + b) % modulus) < modulus)
  sign : ccr.getLsbD 3 = decide (modulus ≤ 2 * ((a + b) % modulus))

theorem sumFlags_byte (x y ccr : Byte) :
    SumFlags 256 x.toNat y.toNat (setHNZVC false x y (x + y) ccr) := by
  have hz : x + y = x + y + bit 8 false := by
    rw [bit_false]
    exact (BitVec.add_zero _).symm
  obtain ⟨hvalue, hcarry, hoverflow, hzero, hsign⟩ :=
    addition_byte x y false ccr
  rw [← hz] at hvalue hcarry hoverflow hzero hsign
  simp only [Bool.toNat_false, add_zero, Nat.cast_zero] at hvalue hcarry hoverflow
  refine ⟨hcarry, hoverflow, ?_, ?_⟩
  · rw [hzero, ← hvalue, decide_eq_decide]
    omega
  · rw [hsign, ← hvalue, decide_eq_decide]
    omega

/-- One more byte above the sum of the others. -/
theorem sumFlags_extend {modulus a b : ℕ} {ccr : Byte}
    (hc : ccr.getLsbD 0 = decide (modulus ≤ a + b)) (ha : a < modulus)
    (hb : b < modulus) (x y : Byte) :
    let z := x + y + (ccr &&& 1)
    SumFlags (modulus * 256) (a + modulus * x.toNat)
        (b + modulus * y.toNat) (setHNZVC false x y z ccr) ∧
      (a + b) % modulus + modulus * z.toNat =
        (a + modulus * x.toNat + (b + modulus * y.toNat)) %
          (modulus * 256) := by
  intro z
  have hz : z = x + y + bit 8 (ccr.getLsbD 0) := by
    rw [← carry_operand]
  obtain ⟨hvalue, hcarry, hoverflow, hzero, hsign⟩ :=
    addition_byte x y (ccr.getLsbD 0) ccr
  rw [← hz] at hvalue hcarry hoverflow hzero hsign
  have hpos : 0 < modulus := by omega
  -- the sum of the lower bytes is a rest and a carry
  obtain ⟨r, hr, hmod, hsum⟩ : ∃ r, r < modulus ∧ (a + b) % modulus = r ∧
      a + b = r + modulus * (ccr.getLsbD 0).toNat := by
    refine ⟨(a + b) % modulus, Nat.mod_lt _ hpos, rfl, ?_⟩
    rw [hc]
    by_cases hover : modulus ≤ a + b
    · rw [decide_eq_true hover, Nat.mod_eq_sub_mod hover,
        Nat.mod_eq_of_lt (by omega)]
      simp only [Bool.toNat_true, mul_one]
      omega
    · rw [decide_eq_false hover, Nat.mod_eq_of_lt (by omega)]
      simp
  generalize (ccr.getLsbD 0).toNat = c at hvalue hcarry hoverflow hsum
  have hwhole : a + modulus * x.toNat + (b + modulus * y.toNat) =
      r + modulus * (x.toNat + y.toNat + c) := by
    calc a + modulus * x.toNat + (b + modulus * y.toNat) =
        (a + b) + modulus * (x.toNat + y.toNat) := by ring
      _ = r + modulus * (x.toNat + y.toNat + c) := by
        rw [hsum]
        ring
  have hresult : (a + modulus * x.toNat + (b + modulus * y.toNat)) %
      (modulus * 256) = r + modulus * z.toNat := by
    rw [hwhole, add_mul_mod hr, hvalue]
  have hcompare : ∀ s t : ℕ, modulus * s ≤ r + modulus * t ↔ s ≤ t := by
    intro s t
    have hiff : (modulus : ℤ) * s ≤ r + modulus * t ↔ (s : ℤ) ≤ t :=
      mul_le_add_mul_iff (by omega) (by omega) s
    exact_mod_cast hiff
  have hzlt := z.isLt
  refine ⟨⟨?_, ?_, ?_, ?_⟩, ?_⟩
  · rw [hcarry, hwhole, decide_eq_decide, hcompare]
  · rw [hoverflow, signed_add_mul (by omega) ha, signed_add_mul (by omega) hb]
    have hsigned : (a : ℤ) + modulus * signed 256 x.toNat +
        (b + modulus * signed 256 y.toNat) =
        r + modulus * (signed 256 x.toNat + signed 256 y.toNat + c) := by
      have hcast : (a : ℤ) + b = r + modulus * c := by exact_mod_cast hsum
      linear_combination hcast
    rw [hsigned]
    congr 1
    rw [decide_eq_decide]
    exact (fits_iff (by omega) (by omega) (by omega)).symm
  · rw [hresult, hzero, decide_eq_decide]
    have hzero' := hcompare 1 z.toNat
    rw [mul_one] at hzero'
    omega
  · rw [hresult, hsign, decide_eq_decide, ← hcompare]
    omega
  · rw [hmod, hresult]

/-! ## The instructions -/

def addBytes (source dest : BitVec 4) : Exec Unit :=
  perform (byteOpcode 0x08 source dest)

def addXBytes (source dest : BitVec 4) : Exec Unit :=
  perform (byteOpcode 0x0e source dest)

theorem addBytes_run (source dest : BitVec 4) (m : Machine) :
    addBytes source dest m =
      (.ok (), Instr.addByte dest (m.reg source) 0 m) := by
  rw [addBytes, perform_byteOpcode 0x08 source dest
    (show Mnemonic.decode (0x08 : Byte).toNat = some .addB by decide)]
  simp only [Mnemonic.body, Instr.addB, compute, rd_byteOpcode,
    rs_byteOpcode]
  rfl

theorem addXBytes_run (source dest : BitVec 4) (m : Machine) :
    addXBytes source dest m =
      (.ok (), Instr.addByte dest (m.reg source) (m.ccr &&& 1) m) := by
  rw [addXBytes, perform_byteOpcode 0x0e source dest
    (show Mnemonic.decode (0x0e : Byte).toNat = some .addX by decide)]
  simp only [Mnemonic.body, Instr.addX, compute, rd_byteOpcode,
    rs_byteOpcode]
  rfl

theorem addByte_reg (dest : BitVec 4) (src carry : Byte) (m : Machine) :
    (Instr.addByte dest src carry m).reg dest = m.reg dest + src + carry :=
  Function.update_self dest _ m.reg

theorem addByte_ccr (dest : BitVec 4) (src carry : Byte) (m : Machine) :
    (Instr.addByte dest src carry m).ccr =
      setHNZVC false (m.reg dest) src (m.reg dest + src + carry) m.ccr :=
  rfl

/-- What the guest does between two bytes keeps the carry. -/
theorem getLsbD_of_kept {ccr ccr' : Byte} (h : ccr' &&& 1 = ccr &&& 1) :
    ccr'.getLsbD 0 = ccr.getLsbD 0 := by
  have hbit := congrArg (fun ccr : Byte => ccr.getLsbD 0) h
  simpa using hbit

/-! ## All bytes -/

theorem sum_of_chain {m m' : Machine} {pairs : List (Byte × Byte)}
    {results : List Byte}
    (hchain : OperandChain addXBytes 1 m pairs results m') :
    ∀ {modulus a b : ℕ}, a < modulus → b < modulus →
      SumFlags modulus a b m.ccr →
      results.length = pairs.length ∧
      SumFlags (modulus * 256 ^ pairs.length)
        (a + modulus * bytesValue (pairs.map Prod.fst))
        (b + modulus * bytesValue (pairs.map Prod.snd)) m'.ccr ∧
      (a + b) % modulus + modulus * bytesValue results =
        (a + modulus * bytesValue (pairs.map Prod.fst) +
          (b + modulus * bytesValue (pairs.map Prod.snd))) %
          (modulus * 256 ^ pairs.length) := by
  induction hchain with
  | nil m =>
      intro modulus a b ha hb h
      simp only [List.map_nil, bytesValue_nil, List.length_nil, pow_zero,
        mul_zero, mul_one, add_zero]
      exact ⟨trivial, h, trivial⟩
  | @cons m m₁ m₂ m' source dest pairs results hkeep hrun _ ih =>
      intro modulus a b ha hb h
      have hc : m₁.ccr.getLsbD 0 = decide (modulus ≤ a + b) :=
        (getLsbD_of_kept hkeep).trans h.carry
      obtain ⟨hflags, hvalue⟩ := sumFlags_extend hc ha hb (m₁.reg dest)
        (m₁.reg source)
      rw [addXBytes_run] at hrun
      obtain ⟨-, rfl⟩ := Prod.mk.inj hrun
      rw [← addByte_ccr] at hflags
      have hx := (m₁.reg dest).isLt
      have hy := (m₁.reg source).isLt
      have hextended : ∀ {v : ℕ} (x : Byte), v < modulus →
          v + modulus * x.toNat < modulus * 256 := by
        intro v x hv
        have hmul := Nat.mul_le_mul_left modulus
          (show x.toNat + 1 ≤ 256 from x.isLt)
        rw [Nat.mul_add, Nat.mul_one] at hmul
        omega
      obtain ⟨hlength, hall, hresult⟩ := ih (hextended _ ha)
        (hextended _ hb) hflags
      have hpow : modulus * 256 ^ (pairs.length + 1) =
          modulus * 256 * 256 ^ pairs.length := by
        rw [pow_succ]
        ring
      have hcons : ∀ (v : ℕ) (x : Byte) (rest : List Byte),
          v + modulus * bytesValue (x :: rest) =
            v + modulus * x.toNat + modulus * 256 * bytesValue rest := by
        intro v x rest
        rw [bytesValue_cons]
        ring
      simp only [List.map_cons, List.length_cons]
      rw [hpow, hcons, hcons, hcons, addByte_reg, hvalue]
      exact ⟨by rw [hlength], hall, hresult⟩

/-- The operands and the sum of all bytes. -/
def leftOperand (pairs : List (Byte × Byte)) : ℕ :=
  bytesValue (pairs.map Prod.fst)

def rightOperand (pairs : List (Byte × Byte)) : ℕ :=
  bytesValue (pairs.map Prod.snd)

def wholeSum (pairs : List (Byte × Byte)) : ℕ :=
  (leftOperand pairs + rightOperand pairs) % 256 ^ pairs.length

/-- The results are the sum, and the flags are those of the whole sum. -/
structure AdditionRight (pairs : List (Byte × Byte)) (results : List Byte)
    (ccr : Byte) : Prop where
  length : results.length = pairs.length
  value : bytesValue results = wholeSum pairs
  carry : ccr.getLsbD 0 =
    decide (256 ^ pairs.length ≤ leftOperand pairs + rightOperand pairs)
  overflow : ccr.getLsbD 1 = !decide (Fits (256 ^ pairs.length)
    (signed (256 ^ pairs.length) (leftOperand pairs) +
      signed (256 ^ pairs.length) (rightOperand pairs)))
  zero : ccr.getLsbD 2 = decide (wholeSum pairs = 0)
  sign : ccr.getLsbD 3 = decide (256 ^ pairs.length ≤ 2 * wholeSum pairs)

theorem sum_of_multiByte {pairs : List (Byte × Byte)} {results : List Byte}
    {m' : Machine}
    (hrun : MultiByte addBytes addXBytes 1 pairs results m') :
    results.length = pairs.length ∧
    SumFlags (256 ^ pairs.length) (leftOperand pairs) (rightOperand pairs)
      m'.ccr ∧
    bytesValue results = wholeSum pairs := by
  obtain ⟨source, dest, hfirst, hrest⟩ := hrun
  rename_i m₁ m₂ pairs results
  rw [addBytes_run] at hfirst
  obtain ⟨-, rfl⟩ := Prod.mk.inj hfirst
  have hsum : m₁.reg dest + m₁.reg source + 0 =
      m₁.reg dest + m₁.reg source := BitVec.add_zero _
  have hbyte := sumFlags_byte (m₁.reg dest) (m₁.reg source) m₁.ccr
  rw [← hsum, ← addByte_ccr] at hbyte
  obtain ⟨hlength, hflags, hvalue⟩ := sum_of_chain hrest
    (m₁.reg dest).isLt (m₁.reg source).isLt hbyte
  simp only [wholeSum, leftOperand, rightOperand, List.map_cons,
    List.length_cons]
  rw [pow_succ, Nat.mul_comm (256 ^ pairs.length), bytesValue_cons,
    bytesValue_cons, bytesValue_cons, addByte_reg, hsum, BitVec.toNat_add]
  exact ⟨by rw [hlength], hflags, hvalue⟩

/-- For all operands and all executions: the results and the flags are right
exactly if the sum is 0 or its highest byte is not. -/
theorem additionRight_iff {pairs : List (Byte × Byte)} {results : List Byte}
    {m' : Machine}
    (hrun : MultiByte addBytes addXBytes 1 pairs results m') :
    AdditionRight pairs results m'.ccr ↔
      wholeSum pairs = 0 ∨ 256 ^ pairs.length ≤ 256 * wholeSum pairs := by
  obtain ⟨hlength, hflags, hvalue⟩ := sum_of_multiByte hrun
  have hpos : 0 < 256 ^ pairs.length := by positivity
  have hshown : m'.ccr.getLsbD 2 =
      decide (256 * wholeSum pairs < 256 ^ pairs.length) := hflags.zero
  constructor
  · intro hright
    have hzero := hshown.symm.trans hright.zero
    rw [decide_eq_decide] at hzero
    omega
  · intro hcases
    refine ⟨hlength, hvalue, hflags.carry, hflags.overflow, ?_, hflags.sign⟩
    rw [hshown, decide_eq_decide]
    omega

/-- The number 1 in two bytes, to which 0 is added. -/
def onePlusZero : Machine :=
  { Machine.powerOn (fun _ => none) [] [] [] with
    reg := fun nr => if nr = 0 then 1 else 0 }

def onePlusZeroDone : Machine :=
  Instr.addByte 2 0 0 (Instr.addByte 0 0 0 onePlusZero)

theorem onePlusZero_run :
    MultiByte addBytes addXBytes 1 [(1, 0), (0, 0)] [1, 0]
      onePlusZeroDone :=
  .intro 1 0 (addBytes_run 1 0 onePlusZero)
    (.cons 3 2 rfl (addXBytes_run 3 2 _) (.nil _))

theorem additionRight_onePlusZero :
    AdditionRight [(1, 0), (0, 0)] [1, 0] onePlusZeroDone.ccr ↔
      wholeSum [(1, 0), (0, 0)] = 0 ∨
        256 ^ 2 ≤ 256 * wholeSum [(1, 0), (0, 0)] :=
  additionRight_iff onePlusZero_run

/-- The zero flag is set for the sum 1. -/
theorem additionRight_fails_highZero :
    ∃ m', MultiByte addBytes addXBytes 1 [(1, 0), (0, 0)] [1, 0] m' ∧
      ¬AdditionRight [(1, 0), (0, 0)] [1, 0] m'.ccr := by
  refine ⟨onePlusZeroDone, onePlusZero_run, ?_⟩
  intro hright
  have hzero := hright.zero
  revert hzero
  decide

end BrickEmu
