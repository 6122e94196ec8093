import BrickEmu.AdditionFlags
import BrickEmu.MachineEffects

/-!
# Subtraction of operands of several bytes

`SUB.B` on the lowest bytes and `SUBX.B` on the others give the difference
and the flags of the whole, and so do the comparisons and `SUB.W` on single
operands.  The conditional branches decide about the relation of the
operands.
-/

namespace BrickEmu

open CarryBits MultiPrecision

/-- The flags of a byte with its borrow, by the values of the operands. -/
theorem subtraction_byte (x y : Byte) (c : Bool) (ccr : Byte) :
    let z := x - y - bit 8 c
    let flags := setHNZVC true x y z ccr
    z.toNat = (x.toNat + 256 - (y.toNat + c.toNat)) % 256 ∧
      flags.getLsbD 0 = decide (x.toNat < y.toNat + c.toNat) ∧
      flags.getLsbD 1 = !decide (Fits 256
        (signed 256 x.toNat - signed 256 y.toNat - c.toNat)) ∧
      flags.getLsbD 2 = decide (z.toNat = 0) ∧
      flags.getLsbD 3 = decide (128 ≤ z.toNat) := by
  intro z flags
  have hx := x.isLt
  have hy := y.isLt
  have hc := Bool.toNat_le c
  have hz : z.toNat = (x.toNat + 256 - (y.toNat + c.toNat)) % 256 := by
    have hsbb : z.toNat = (x.toNat + 512 - y.toNat - c.toNat) % 256 :=
      toNat_sbb x y c
    omega
  obtain ⟨hcarry, hoverflow, hzero, hsign⟩ :=
    setHNZVC_getLsbD (Or.inl rfl) true x y z ccr
  have hflags := bitFlags_sub (by omega) (show z = x - y - bit 8 c from rfl)
  rw [hflags] at hcarry hoverflow hzero hsign
  refine ⟨hz, hcarry, ?_, ?_, ?_⟩
  · rw [hoverflow, signed_byte, signed_byte]
    simp only
    rw [msb_iff x, msb_iff y, msb_iff z, hz, Bool.eq_iff_iff]
    simp only [decide_eq_true_eq, decide_eq_decide, ne_eq,
      Bool.not_eq_true', decide_eq_false_iff_not, Fits]
    split_ifs <;> omega
  · rw [hzero, decide_eq_decide]
    exact byte_eq_zero z
  · rw [hsign]
    exact msb_iff z

/-- The flags after a subtraction modulo `modulus`. -/
structure DiffFlags (modulus a b : ℕ) (ccr : Byte) : Prop where
  carry : ccr.getLsbD 0 = decide (a < b)
  overflow : ccr.getLsbD 1 =
    !decide (Fits modulus (signed modulus a - signed modulus b))
  zero : ccr.getLsbD 2 = decide (a = b)
  sign : ccr.getLsbD 3 = decide (modulus ≤ 2 * ((a + modulus - b) % modulus))

theorem diffFlags_byte (x y ccr : Byte) :
    DiffFlags 256 x.toNat y.toNat (setHNZVC true x y (x - y) ccr) := by
  have hz : x - y = x - y - bit 8 false := by
    rw [bit_false]
    exact (BitVec.sub_zero _).symm
  have hx := x.isLt
  have hy := y.isLt
  obtain ⟨hvalue, hcarry, hoverflow, hzero, hsign⟩ :=
    subtraction_byte x y false ccr
  rw [← hz] at hvalue hcarry hoverflow hzero hsign
  simp only [Bool.toNat_false, add_zero, Nat.cast_zero, sub_zero]
    at hvalue hcarry hoverflow
  refine ⟨hcarry, hoverflow, ?_, ?_⟩
  · rw [hzero, decide_eq_decide]
    omega
  · rw [hsign, ← hvalue, decide_eq_decide]
    omega

/-- `SUBX` leaves the zero flag set only if it was. -/
theorem getLsbD_keepZero (flags ccr : Byte) :
    (flags &&& (ccr ||| ~~~4)).getLsbD 0 = flags.getLsbD 0 ∧
      (flags &&& (ccr ||| ~~~4)).getLsbD 1 = flags.getLsbD 1 ∧
      (flags &&& (ccr ||| ~~~4)).getLsbD 2 =
        (flags.getLsbD 2 && ccr.getLsbD 2) ∧
      (flags &&& (ccr ||| ~~~4)).getLsbD 3 = flags.getLsbD 3 := by
  simp

/-- One more byte above the difference of the others. -/
theorem diffFlags_extend {modulus a b : ℕ} {ccr : Byte}
    (hc : ccr.getLsbD 0 = decide (a < b))
    (heq : ccr.getLsbD 2 = decide (a = b)) (ha : a < modulus)
    (hb : b < modulus) (x y : Byte) :
    let z := x - y - (ccr &&& 1)
    DiffFlags (modulus * 256) (a + modulus * x.toNat)
        (b + modulus * y.toNat)
        (setHNZVC true x y z ccr &&& (ccr ||| ~~~4)) ∧
      (a + modulus - b) % modulus + modulus * z.toNat =
        (a + modulus * x.toNat + modulus * 256 - (b + modulus * y.toNat)) %
          (modulus * 256) := by
  intro z
  have hz : z = x - y - bit 8 (ccr.getLsbD 0) := by
    rw [← carry_operand]
  obtain ⟨hvalue, hcarry, hoverflow, hzero, hsign⟩ :=
    subtraction_byte x y (ccr.getLsbD 0) ccr
  rw [← hz] at hvalue hcarry hoverflow hzero hsign
  obtain ⟨hkeep0, hkeep1, hkeep2, hkeep3⟩ :=
    getLsbD_keepZero (setHNZVC true x y z ccr) ccr
  have hx := x.isLt
  have hy := y.isLt
  -- the difference of the lower bytes is a rest and a borrow
  obtain ⟨r, hr, hmod, hdiff, hrest⟩ : ∃ r, r < modulus ∧
      (a + modulus - b) % modulus = r ∧
      a + modulus * (ccr.getLsbD 0).toNat = b + r ∧
      ((ccr.getLsbD 0).toNat = 0 ∧ b ≤ a ∨
        (ccr.getLsbD 0).toNat = 1 ∧ a < b) := by
    refine ⟨(a + modulus - b) % modulus, Nat.mod_lt _ (by omega), rfl, ?_⟩
    rw [hc]
    by_cases hborrow : a < b
    · rw [decide_eq_true hborrow, Nat.mod_eq_of_lt (by omega)]
      simp only [Bool.toNat_true, mul_one, true_and]
      omega
    · rw [decide_eq_false hborrow, Nat.mod_eq_sub_mod (by omega),
        Nat.mod_eq_of_lt (by omega)]
      simp only [Bool.toNat_false, mul_zero, add_zero, true_and]
      omega
  generalize (ccr.getLsbD 0).toNat = c at hvalue hcarry hoverflow hdiff hrest
  have hcle : c ≤ 1 := by omega
  have hwhole : ((a + modulus * x.toNat : ℕ) : ℤ) -
      (b + modulus * y.toNat : ℕ) =
        r + modulus * ((x.toNat : ℤ) - y.toNat - c) := by
    have hcast : (a : ℤ) + modulus * c = b + r := by exact_mod_cast hdiff
    push_cast
    linear_combination hcast
  have hresult : (a + modulus * x.toNat + modulus * 256 -
      (b + modulus * y.toNat)) % (modulus * 256) = r + modulus * z.toNat := by
    have hsplit : a + modulus * x.toNat + modulus * 256 =
        (b + modulus * y.toNat) +
          (r + modulus * (x.toNat + 256 - (y.toNat + c))) := by
      have hcast : (a : ℤ) + modulus * c = b + r := by exact_mod_cast hdiff
      zify [show y.toNat + c ≤ x.toNat + 256 by omega]
      linear_combination hcast
    rw [hsplit, Nat.add_sub_cancel_left, add_mul_mod hr, hvalue]
  have hcompare : ∀ s t : ℤ, r + modulus * t < modulus * s ↔ t < s :=
    fun s t => add_mul_lt_mul_iff (by omega) (by omega)
  have hzlt := z.isLt
  refine ⟨⟨?_, ?_, ?_, ?_⟩, ?_⟩
  · have hborrow := hcompare 0 ((x.toNat : ℤ) - y.toNat - c)
    rw [mul_zero] at hborrow
    rw [hkeep0, hcarry, decide_eq_decide]
    omega
  · rw [hkeep1, hoverflow, signed_add_mul (by omega) ha,
      signed_add_mul (by omega) hb]
    have hsigned : (a : ℤ) + modulus * signed 256 x.toNat -
        (b + modulus * signed 256 y.toNat) =
        r + modulus * (signed 256 x.toNat - signed 256 y.toNat - c) := by
      have hcast : (a : ℤ) + modulus * c = b + r := by exact_mod_cast hdiff
      linear_combination hcast
    rw [hsigned]
    congr 1
    rw [decide_eq_decide]
    exact (fits_iff (by omega) (by omega) (by omega)).symm
  · rw [hkeep2, hzero, heq, ← Bool.decide_and, decide_eq_decide]
    constructor
    · rintro ⟨hzero', rfl⟩
      have hc0 : c = 0 := by omega
      have hxy : x.toNat = y.toNat := by omega
      rw [hxy]
    · intro hsame
      have hbelow := hcompare 0 ((x.toNat : ℤ) - y.toNat - c)
      have habove := hcompare 1 ((x.toNat : ℤ) - y.toNat - c)
      rw [hsame, sub_self] at hwhole
      rw [← hwhole, mul_zero] at hbelow
      rw [← hwhole, mul_one] at habove
      have ht : (x.toNat : ℤ) - y.toNat - c = 0 := by omega
      rw [ht, mul_zero, add_zero] at hwhole
      rcases hrest with ⟨rfl, hle⟩ | ⟨rfl, hlt⟩
      · have hxy : x.toNat = y.toNat := by omega
        rw [hxy] at hsame hvalue
        omega
      · rw [mul_one] at hdiff
        omega
  · rw [hkeep3, hresult, hsign, decide_eq_decide]
    have hhalf := hcompare 128 z.toNat
    norm_cast at hhalf
    omega
  · rw [hmod, hresult]

/-! ## The instructions -/

def subBytes (source dest : BitVec 4) : Exec Unit :=
  perform (byteOpcode 0x18 source dest)

def subXBytes (source dest : BitVec 4) : Exec Unit :=
  perform (byteOpcode 0x1e source dest)

def cmpBytes (source dest : BitVec 4) : Exec Unit :=
  perform (byteOpcode 0x1c source dest)

def subWords (source dest : BitVec 3) : Exec Unit :=
  perform (wordOpcode 0x19 source dest)

def cmpWords (source dest : BitVec 3) : Exec Unit :=
  perform (wordOpcode 0x1d source dest)

theorem subBytes_run (source dest : BitVec 4) (m : Machine) :
    subBytes source dest m =
      (.ok (), Instr.subByte dest (m.reg source) 0 m) := by
  rw [subBytes, perform_byteOpcode 0x18 source dest
    (show Mnemonic.decode (0x18 : Byte).toNat = some .subB by decide)]
  simp only [Mnemonic.body, Instr.subB, compute, rd_byteOpcode,
    rs_byteOpcode]
  rfl

theorem subXBytes_run (source dest : BitVec 4) (m : Machine) :
    subXBytes source dest m =
      (.ok (), Instr.subXByte dest (m.reg source) m) := by
  rw [subXBytes, perform_byteOpcode 0x1e source dest
    (show Mnemonic.decode (0x1e : Byte).toNat = some .subX by decide)]
  simp only [Mnemonic.body, Instr.subX, compute, rd_byteOpcode,
    rs_byteOpcode]
  rfl

theorem cmpBytes_run (source dest : BitVec 4) (m : Machine) :
    cmpBytes source dest m =
      (.ok (), m.setCcr (Instr.subFlags dest (m.reg source) 0 m)) := by
  rw [cmpBytes, perform_byteOpcode 0x1c source dest
    (show Mnemonic.decode (0x1c : Byte).toNat = some .cmpB by decide)]
  simp only [Mnemonic.body, Instr.cmpB, compute, rd_byteOpcode,
    rs_byteOpcode]
  rfl

theorem subWords_run (source dest : BitVec 3) (m : Machine) :
    subWords source dest m =
      (.ok (), (m.setReg16 dest (m.reg16 dest - m.reg16 source)).setCcr
        (setHNZVC true (m.reg16 dest) (m.reg16 source)
          (m.reg16 dest - m.reg16 source) m.ccr)) := by
  have hlegal := wordOpcode_legal 0x19 source dest
  rw [subWords, perform_wordOpcode 0x19 source dest
    (show Mnemonic.decode (0x19 : Byte).toNat = some .subW by decide)]
  simp only [Mnemonic.body, Instr.subW, compute, Instr.subWFlags,
    rd16_wordOpcode, rs16_wordOpcode, hlegal]
  rfl

theorem cmpWords_run (source dest : BitVec 3) (m : Machine) :
    cmpWords source dest m =
      (.ok (), m.setCcr (setHNZVC true (m.reg16 dest) (m.reg16 source)
        (m.reg16 dest - m.reg16 source) m.ccr)) := by
  have hlegal := wordOpcode_legal 0x1d source dest
  rw [cmpWords, perform_wordOpcode 0x1d source dest
    (show Mnemonic.decode (0x1d : Byte).toNat = some .cmpW by decide)]
  simp only [Mnemonic.body, Instr.cmpW, compute, Instr.subWFlags,
    rd16_wordOpcode, rs16_wordOpcode, hlegal]
  rfl

theorem subByte_reg (dest : BitVec 4) (src : Byte) (m : Machine) :
    (Instr.subByte dest src 0 m).reg dest = m.reg dest - src := by
  have hreg : (Instr.subByte dest src 0 m).reg dest =
      m.reg dest - src - 0 := Function.update_self dest _ m.reg
  rw [hreg]
  exact BitVec.sub_zero _

theorem subByte_ccr (dest : BitVec 4) (src : Byte) (m : Machine) :
    Instr.subFlags dest src 0 m =
      setHNZVC true (m.reg dest) src (m.reg dest - src) m.ccr := by
  have hflags : Instr.subFlags dest src 0 m =
      setHNZVC true (m.reg dest) src (m.reg dest - src - 0) m.ccr := rfl
  have hzero : m.reg dest - src - 0 = m.reg dest - src := BitVec.sub_zero _
  rw [hflags, hzero]

theorem subXByte_reg (dest : BitVec 4) (src : Byte) (m : Machine) :
    (Instr.subXByte dest src m).reg dest =
      m.reg dest - src - (m.ccr &&& 1) :=
  Function.update_self dest _ m.reg

theorem subXByte_ccr (dest : BitVec 4) (src : Byte) (m : Machine) :
    (Instr.subXByte dest src m).ccr =
      setHNZVC true (m.reg dest) src (m.reg dest - src - (m.ccr &&& 1))
        m.ccr &&& (m.ccr ||| ~~~4) :=
  rfl

/-! ## All bytes -/

/-- What the guest does between two bytes keeps carry and zero. -/
theorem getLsbD_of_kept_zero {ccr ccr' : Byte}
    (h : ccr' &&& 5 = ccr &&& 5) :
    ccr'.getLsbD 0 = ccr.getLsbD 0 ∧ ccr'.getLsbD 2 = ccr.getLsbD 2 := by
  have hcarry := congrArg (fun ccr : Byte => ccr.getLsbD 0) h
  have hzero := congrArg (fun ccr : Byte => ccr.getLsbD 2) h
  exact ⟨by simpa using hcarry, by simpa using hzero⟩

theorem difference_of_chain {m m' : Machine} {pairs : List (Byte × Byte)}
    {results : List Byte}
    (hchain : OperandChain subXBytes 5 m pairs results m') :
    ∀ {modulus a b : ℕ}, a < modulus → b < modulus →
      DiffFlags modulus a b m.ccr →
      results.length = pairs.length ∧
      DiffFlags (modulus * 256 ^ pairs.length)
        (a + modulus * leftOperand pairs)
        (b + modulus * rightOperand pairs) m'.ccr ∧
      (a + modulus - b) % modulus + modulus * bytesValue results =
        (a + modulus * leftOperand pairs + modulus * 256 ^ pairs.length -
          (b + modulus * rightOperand pairs)) %
          (modulus * 256 ^ pairs.length) := by
  induction hchain with
  | nil m =>
      intro modulus a b ha hb h
      simp only [leftOperand, rightOperand, List.map_nil, bytesValue_nil,
        List.length_nil, pow_zero, mul_zero, mul_one, add_zero]
      exact ⟨trivial, h, trivial⟩
  | @cons m m₁ m₂ m' source dest pairs results hkeep hrun _ ih =>
      intro modulus a b ha hb h
      obtain ⟨hcarry, hzero⟩ := getLsbD_of_kept_zero hkeep
      obtain ⟨hflags, hvalue⟩ := diffFlags_extend (hcarry.trans h.carry)
        (hzero.trans h.zero) ha hb (m₁.reg dest) (m₁.reg source)
      rw [subXBytes_run] at hrun
      obtain ⟨-, rfl⟩ := Prod.mk.inj hrun
      rw [← subXByte_ccr] at hflags
      have hextended : ∀ {v : ℕ} (x : Byte), v < modulus →
          v + modulus * x.toNat < modulus * 256 := by
        intro v x hv
        have hmul := Nat.mul_le_mul_left modulus
          (show x.toNat + 1 ≤ 256 from x.isLt)
        rw [Nat.mul_add, Nat.mul_one] at hmul
        omega
      obtain ⟨hlength, hall, hresult⟩ := ih (hextended _ ha)
        (hextended _ hb) hflags
      have hpow : modulus * 256 ^ (pairs.length + 1) =
          modulus * 256 * 256 ^ pairs.length := by
        rw [pow_succ]
        ring
      have hcons : ∀ (v : ℕ) (x : Byte) (rest : List Byte),
          v + modulus * bytesValue (x :: rest) =
            v + modulus * x.toNat + modulus * 256 * bytesValue rest := by
        intro v x rest
        rw [bytesValue_cons]
        ring
      rw [leftOperand, rightOperand] at hall hresult
      simp only [leftOperand, rightOperand, List.map_cons, List.length_cons]
      rw [hpow, hcons, hcons, hcons, subXByte_reg, hvalue]
      exact ⟨by rw [hlength], hall, hresult⟩

theorem difference_of_multiByte {pairs : List (Byte × Byte)}
    {results : List Byte} {m' : Machine}
    (hrun : MultiByte subBytes subXBytes 5 pairs results m') :
    results.length = pairs.length ∧
    DiffFlags (256 ^ pairs.length) (leftOperand pairs) (rightOperand pairs)
      m'.ccr ∧
    bytesValue results =
      (leftOperand pairs + 256 ^ pairs.length - rightOperand pairs) %
        256 ^ pairs.length := by
  obtain ⟨source, dest, hfirst, hrest⟩ := hrun
  rename_i m₁ m₂ pairs results
  rw [subBytes_run] at hfirst
  obtain ⟨-, rfl⟩ := Prod.mk.inj hfirst
  have hbyte := diffFlags_byte (m₁.reg dest) (m₁.reg source) m₁.ccr
  rw [← subByte_ccr] at hbyte
  obtain ⟨hlength, hflags, hvalue⟩ := difference_of_chain hrest
    (m₁.reg dest).isLt (m₁.reg source).isLt hbyte
  have hdiff : ((m₁.reg dest).toNat + 2 ^ 8 - (m₁.reg source).toNat) % 2 ^ 8 =
      (m₁.reg dest - m₁.reg source).toNat := by
    rw [BitVec.toNat_sub]
    congr 1
    omega
  rw [leftOperand, rightOperand] at hflags hvalue
  rw [hdiff] at hvalue
  simp only [leftOperand, rightOperand, List.map_cons, List.length_cons]
  rw [pow_succ, Nat.mul_comm (256 ^ pairs.length), bytesValue_cons,
    bytesValue_cons, bytesValue_cons, subByte_reg]
  exact ⟨by rw [hlength], hflags, hvalue⟩

theorem diffFlags_word (x y : Word) (ccr : Byte) :
    DiffFlags 65536 x.toNat y.toNat (setHNZVC true x y (x - y) ccr) := by
  have hz : x - y = x - y - bit 16 false := by
    rw [bit_false]
    exact (BitVec.sub_zero _).symm
  have hx := x.isLt
  have hy := y.isLt
  have hvalue : (x - y).toNat = (x.toNat + 65536 - y.toNat) % 65536 := by
    rw [BitVec.toNat_sub]
    congr 1
    omega
  have hmsb : ∀ v : Word, v.msb = decide (32768 ≤ v.toNat) :=
    fun v => BitVec.msb_eq_decide v
  obtain ⟨hcarry, hoverflow, hzero, hsign⟩ :=
    setHNZVC_getLsbD (Or.inr rfl) true x y (x - y) ccr
  have hflags := bitFlags_sub (by omega) hz
  rw [hflags] at hcarry hoverflow hzero hsign
  refine ⟨?_, ?_, ?_, ?_⟩
  · simpa using hcarry
  · rw [hoverflow]
    simp only
    rw [hmsb x, hmsb y, hmsb (x - y), hvalue, Bool.eq_iff_iff]
    simp only [decide_eq_true_eq, decide_eq_decide, ne_eq,
      Bool.not_eq_true', decide_eq_false_iff_not]
    rw [Fits, signed, signed]
    split_ifs <;> omega
  · rw [hzero, decide_eq_decide]
    constructor
    · intro h
      have hnat := congrArg BitVec.toNat h
      rw [hvalue] at hnat
      have h0 : (0 : Word).toNat = 0 := rfl
      omega
    · intro h
      apply BitVec.eq_of_toNat_eq
      have h0 : (0 : Word).toNat = 0 := rfl
      omega
  · rw [hsign, hmsb, hvalue, decide_eq_decide]
    omega

/-! ## The conditional branches -/

/-- The relations of two operands that branches decide about. -/
inductive Relates where
  | hi | ls | cc | cs | ne | eq | ge | lt | gt | le
  deriving DecidableEq

namespace Relates

/-- The first byte of the branch. -/
def code : Relates → Byte
  | hi => 0x42
  | ls => 0x43
  | cc => 0x44
  | cs => 0x45
  | ne => 0x46
  | eq => 0x47
  | ge => 0x4c
  | lt => 0x4d
  | gt => 0x4e
  | le => 0x4f

/-- The unsigned or signed relation of the operands. -/
def Holds (modulus a b : ℕ) : Relates → Prop
  | hi => b < a
  | ls => a ≤ b
  | cc => b ≤ a
  | cs => a < b
  | ne => a ≠ b
  | eq => a = b
  | ge => signed modulus b ≤ signed modulus a
  | lt => signed modulus a < signed modulus b
  | gt => signed modulus b < signed modulus a
  | le => signed modulus a ≤ signed modulus b

instance (modulus a b : ℕ) :
    (relation : Relates) → Decidable (relation.Holds modulus a b)
  | hi => inferInstanceAs (Decidable (b < a))
  | ls => inferInstanceAs (Decidable (a ≤ b))
  | cc => inferInstanceAs (Decidable (b ≤ a))
  | cs => inferInstanceAs (Decidable (a < b))
  | ne => inferInstanceAs (Decidable (a ≠ b))
  | eq => inferInstanceAs (Decidable (a = b))
  | ge => inferInstanceAs (Decidable (signed modulus b ≤ signed modulus a))
  | lt => inferInstanceAs (Decidable (signed modulus a < signed modulus b))
  | gt => inferInstanceAs (Decidable (signed modulus b < signed modulus a))
  | le => inferInstanceAs (Decidable (signed modulus a ≤ signed modulus b))

/-- The condition in the flags. -/
def taken : Relates → Byte → Bool
  | hi, ccr => ccr &&& 0x5 = 0
  | ls, ccr => ccr &&& 0x5 ≠ 0
  | cc, ccr => ccr &&& 0x1 = 0
  | cs, ccr => ccr &&& 0x1 ≠ 0
  | ne, ccr => ccr &&& 0x4 = 0
  | eq, ccr => ccr &&& 0x4 ≠ 0
  | ge, ccr => ((ccr >>> 2) ^^^ ccr) &&& 0x2 = 0
  | lt, ccr => ((ccr >>> 2) ^^^ ccr) &&& 0x2 ≠ 0
  | gt, ccr => (((ccr >>> 2) &&& 2) ^^^ ccr) &&& 0x6 = 0
  | le, ccr => (((ccr >>> 2) &&& 2) ^^^ ccr) &&& 0x6 ≠ 0

end Relates

/-- Every branch that is executed in this state is taken exactly if its
relation holds. -/
def BranchesDecide (modulus a b : ℕ) (m : Machine) : Prop :=
  ∀ (relation : Relates) (displacement : Byte),
    (perform (immediateOpcode relation.code displacement) m).2.pc =
      if relation.Holds modulus a b then m.pc + displacement.signExtend 16
      else m.pc

theorem perform_branch (relation : Relates) (displacement : Byte) :
    perform (immediateOpcode relation.code displacement) =
      Instr.branch (immediateOpcode relation.code displacement)
        relation.taken := by
  cases relation with
  | hi =>
      exact perform_immediateOpcode (show Mnemonic.decode
        (0x42 : Byte).toNat = some .bhi by decide) displacement
  | ls =>
      exact perform_immediateOpcode (show Mnemonic.decode
        (0x43 : Byte).toNat = some .blo by decide) displacement
  | cc =>
      exact perform_immediateOpcode (show Mnemonic.decode
        (0x44 : Byte).toNat = some .bcc by decide) displacement
  | cs =>
      exact perform_immediateOpcode (show Mnemonic.decode
        (0x45 : Byte).toNat = some .bcs by decide) displacement
  | ne =>
      exact perform_immediateOpcode (show Mnemonic.decode
        (0x46 : Byte).toNat = some .bne by decide) displacement
  | eq =>
      exact perform_immediateOpcode (show Mnemonic.decode
        (0x47 : Byte).toNat = some .beq by decide) displacement
  | ge =>
      exact perform_immediateOpcode (show Mnemonic.decode
        (0x4c : Byte).toNat = some .bge by decide) displacement
  | lt =>
      exact perform_immediateOpcode (show Mnemonic.decode
        (0x4d : Byte).toNat = some .blt by decide) displacement
  | gt =>
      exact perform_immediateOpcode (show Mnemonic.decode
        (0x4e : Byte).toNat = some .bgt by decide) displacement
  | le =>
      exact perform_immediateOpcode (show Mnemonic.decode
        (0x4f : Byte).toNat = some .ble by decide) displacement

/-- A branch to a bad address still sets the program counter. -/
theorem branch_pc (opc : Word) (taken : Byte → Bool) (m : Machine) :
    (Instr.branch opc taken m).2.pc =
      if taken m.ccr then m.pc + displacement opc else m.pc := by
  have heffect := m.getWordCycles_effect m.pc
  have hcheck : ∀ m : Machine, (checkPc m).2.pc = m.pc := by
    intro m
    rw [checkPc, Program.leaveIf]
    split <;> rfl
  have hrun : Instr.branch opc taken m =
      checkPc (if taken (m.getWordCycles m.pc).2.ccr
        then (m.getWordCycles m.pc).2.setPc
          ((m.getWordCycles m.pc).2.pc + displacement opc)
        else (m.getWordCycles m.pc).2) := rfl
  rw [hrun, hcheck, heffect.ccr_eq]
  split
  · rw [Machine.setPc]
    exact congrArg (· + displacement opc) heffect.pc_eq
  · exact heffect.pc_eq

/-- The decisions by the single flags. -/
theorem taken_eq (relation : Relates) :
    ∀ ccr : Byte, relation.taken ccr =
      match relation with
      | .hi => !(ccr.getLsbD 0 || ccr.getLsbD 2)
      | .ls => ccr.getLsbD 0 || ccr.getLsbD 2
      | .cc => !ccr.getLsbD 0
      | .cs => ccr.getLsbD 0
      | .ne => !ccr.getLsbD 2
      | .eq => ccr.getLsbD 2
      | .ge => ccr.getLsbD 3 == ccr.getLsbD 1
      | .lt => ccr.getLsbD 3 != ccr.getLsbD 1
      | .gt => !(ccr.getLsbD 2 || ccr.getLsbD 3 != ccr.getLsbD 1)
      | .le => ccr.getLsbD 2 || ccr.getLsbD 3 != ccr.getLsbD 1 := by
  cases relation <;> decide +kernel

section Decisions

variable {modulus a b : ℕ} {ccr : Byte}

/-- Sign and overflow together tell the signed order. -/
theorem DiffFlags.signed_lt (h : DiffFlags modulus a b ccr)
    (ha : a < modulus) (hb : b < modulus) (heven : modulus % 2 = 0) :
    (ccr.getLsbD 3 != ccr.getLsbD 1) =
      decide (signed modulus a < signed modulus b) := by
  obtain ⟨r, hr⟩ : ∃ r, r = (a + modulus - b) % modulus := ⟨_, rfl⟩
  have hrest : r + b = a ∧ b ≤ a ∨ r + b = a + modulus ∧ a < b := by
    by_cases hborrow : a < b
    · rw [Nat.mod_eq_of_lt (by omega)] at hr
      omega
    · rw [Nat.mod_eq_sub_mod (by omega), Nat.mod_eq_of_lt (by omega)] at hr
      omega
  have hdiffer : ∀ p q : Bool, (p != !q) = (p == q) := by decide
  rw [h.sign, h.overflow, ← hr, hdiffer, Bool.eq_iff_iff, beq_iff_eq,
    decide_eq_decide, decide_eq_true_iff, Fits, signed, signed]
  split_ifs <;> omega

theorem DiffFlags.taken_iff (h : DiffFlags modulus a b ccr)
    (ha : a < modulus) (hb : b < modulus) (heven : modulus % 2 = 0)
    (relation : Relates) :
    relation.taken ccr = true ↔ relation.Holds modulus a b := by
  have hlt := h.signed_lt ha hb heven
  have hsigned : signed modulus a = signed modulus b ↔ a = b := by
    rw [signed, signed]
    split_ifs <;> omega
  rw [taken_eq]
  cases relation with
  | hi =>
      simp only [h.carry, h.zero, ← Bool.decide_or, ← decide_not,
        decide_eq_true_iff, Relates.Holds]
      omega
  | ls =>
      simp only [h.carry, h.zero, ← Bool.decide_or, decide_eq_true_iff,
        Relates.Holds]
      omega
  | cc =>
      simp only [h.carry, ← decide_not, decide_eq_true_iff, Relates.Holds]
      omega
  | cs => simp only [h.carry, decide_eq_true_iff, Relates.Holds]
  | ne => simp only [h.zero, ← decide_not, decide_eq_true_iff, Relates.Holds, ne_eq]
  | eq => simp only [h.zero, decide_eq_true_iff, Relates.Holds]
  | ge =>
      have hsame : ∀ p q : Bool, (p == q) = !(p != q) := by decide
      simp only [hsame, hlt, ← decide_not, decide_eq_true_iff, not_lt,
        Relates.Holds]
  | lt => simp only [hlt, decide_eq_true_iff, Relates.Holds]
  | gt =>
      simp only [hlt, h.zero, ← Bool.decide_or, ← decide_not,
        decide_eq_true_iff, Relates.Holds]
      omega
  | le =>
      simp only [hlt, h.zero, ← Bool.decide_or, decide_eq_true_iff,
        Relates.Holds]
      omega

theorem DiffFlags.branchesDecide {m : Machine}
    (h : DiffFlags modulus a b m.ccr) (ha : a < modulus) (hb : b < modulus)
    (heven : modulus % 2 = 0) : BranchesDecide modulus a b m := by
  intro relation offset
  have htarget : displacement (immediateOpcode relation.code offset) =
      offset.signExtend 16 := by
    rw [displacement, immediateOpcode, opcval_append]
  rw [perform_branch, branch_pc, htarget]
  simp only [h.taken_iff ha hb heven]

end Decisions

/-- The results are the difference, the flags are those of the whole
difference, and the branches decide about the whole operands. -/
structure SubtractionRight (pairs : List (Byte × Byte))
    (results : List Byte) (m : Machine) : Prop where
  length : results.length = pairs.length
  value : bytesValue results =
    (leftOperand pairs + 256 ^ pairs.length - rightOperand pairs) %
      256 ^ pairs.length
  flags : DiffFlags (256 ^ pairs.length) (leftOperand pairs)
    (rightOperand pairs) m.ccr
  branches : BranchesDecide (256 ^ pairs.length) (leftOperand pairs)
    (rightOperand pairs) m

/-- The flags and the branches behind an instruction on single operands. -/
structure ComparisonRight (modulus a b : ℕ) (m : Machine) : Prop where
  flags : DiffFlags modulus a b m.ccr
  branches : BranchesDecide modulus a b m

theorem leftOperand_lt (pairs : List (Byte × Byte)) :
    leftOperand pairs < 256 ^ pairs.length := by
  have hlt := bytesValue_lt (pairs.map Prod.fst)
  rw [List.length_map] at hlt
  exact hlt

theorem rightOperand_lt (pairs : List (Byte × Byte)) :
    rightOperand pairs < 256 ^ pairs.length := by
  have hlt := bytesValue_lt (pairs.map Prod.snd)
  rw [List.length_map] at hlt
  exact hlt

theorem subtractionRight_of_multiByte {pairs : List (Byte × Byte)}
    {results : List Byte} {m' : Machine}
    (hrun : MultiByte subBytes subXBytes 5 pairs results m') :
    SubtractionRight pairs results m' := by
  obtain ⟨hlength, hflags, hvalue⟩ := difference_of_multiByte hrun
  have hne : pairs.length ≠ 0 := by
    cases hrun
    simp
  have heven : 256 ^ pairs.length % 2 = 0 := by
    apply Nat.mod_eq_zero_of_dvd
    exact dvd_pow (by decide) hne
  exact ⟨hlength, hvalue, hflags, hflags.branchesDecide
    (leftOperand_lt pairs) (rightOperand_lt pairs) heven⟩

/-- For operands of any number of bytes, and for the comparisons and the
subtraction on single operands. -/
theorem subtraction_right :
    (∀ pairs results m', MultiByte subBytes subXBytes 5 pairs results m' →
      SubtractionRight pairs results m') ∧
    (∀ source dest m, ∃ m', cmpBytes source dest m = (.ok (), m') ∧
      ComparisonRight 256 (m.reg dest).toNat (m.reg source).toNat m') ∧
    (∀ source dest m, ∃ m', cmpWords source dest m = (.ok (), m') ∧
      ComparisonRight 65536 (m.reg16 dest).toNat (m.reg16 source).toNat
        m') ∧
    (∀ source dest m, ∃ m', subWords source dest m = (.ok (), m') ∧
      m'.reg16 dest = m.reg16 dest - m.reg16 source ∧
      ComparisonRight 65536 (m.reg16 dest).toNat (m.reg16 source).toNat
        m') := by
  refine ⟨fun _ _ _ => subtractionRight_of_multiByte, ?_, ?_, ?_⟩
  · intro source dest m
    have hflags := diffFlags_byte (m.reg dest) (m.reg source) m.ccr
    rw [← subByte_ccr] at hflags
    exact ⟨_, cmpBytes_run source dest m, hflags,
      DiffFlags.branchesDecide hflags (m.reg dest).isLt (m.reg source).isLt
        (by decide)⟩
  · intro source dest m
    have hflags := diffFlags_word (m.reg16 dest) (m.reg16 source) m.ccr
    exact ⟨_, cmpWords_run source dest m, hflags,
      DiffFlags.branchesDecide hflags (m.reg16 dest).isLt
        (m.reg16 source).isLt (by decide)⟩
  · intro source dest m
    have hflags := diffFlags_word (m.reg16 dest) (m.reg16 source) m.ccr
    exact ⟨_, subWords_run source dest m, setReg16_reg16 dest _ m, hflags,
      DiffFlags.branchesDecide hflags (m.reg16 dest).isLt
        (m.reg16 source).isLt (by decide)⟩

theorem subtraction_right_onePlusZero :
    SubtractionRight [(1, 0), (0, 0)] [1, 0]
      (Instr.subXByte 2 0 (Instr.subByte 0 0 0 onePlusZero)) :=
  subtraction_right.1 _ _ _
    (.intro 1 0 (subBytes_run 1 0 onePlusZero)
      (.cons 3 2 rfl (subXBytes_run 3 2 _) (.nil _)))

end BrickEmu
