import BrickEmu.AsmAgreement

/-!
# Instructions of the core on registers and flags

These instructions end in the shortest epilogue, which charges what the C code
has charged for the fetch.  It remains that they compute the same registers
and flags.
-/

namespace BrickEmu

open CarryBits

section Registers

variable {opc : Word} {mask : Byte} {illegal : Bool} {m : Machine}
  {runAsm runC : Machine → Machine}

theorem matches_onRegisters (hlegal : Asm.Legal opc mask)
    (hillegal : illegal = false) (hrun : runAsm m = runC m)
    (hframe : runC m.fetched = (runC m).fetched) :
    Matches (Asm.onRegisters opc mask runAsm m)
      (compute illegal runC m.fetched) := by
  have hc : compute illegal runC m.fetched = (.ok (), runC m.fetched) :=
    illegalIf_bind hillegal
  have hasm : Asm.onRegisters opc mask runAsm m =
      (.ok (), (runAsm m).epilogue 2 2) := illOpc_bind hlegal
  rw [hc, hasm]
  refine ⟨_, rfl, ?_⟩
  rw [epilogue_eq_fetched, hrun, hframe]
  exact ⟨rfl, rfl, rfl, rfl, rfl, rfl, rfl⟩

theorem legal_zero (opc : Word) : Asm.Legal opc 0 :=
  BitVec.and_zero

theorem Asm.Legal.not_illegal (hlegal : Asm.Legal opc mask) :
    decide (opcval opc &&& mask ≠ 0) = false := by
  have hzero : opcval opc &&& mask = 0 := hlegal
  simp [hzero]

end Registers

section Bytes

variable (nr : BitVec 4) (dl : Byte) (m : Machine)

theorem bit_carry (ccr : Byte) : bit 8 (ccr.getLsbD 0) = ccr &&& 1 := by
  have hmask : (1 : Byte) = BitVec.twoPow 8 0 := rfl
  rw [and_mask ccr 0 hmask]
  cases ccr.getLsbD 0 <;> rfl

theorem or_one_and (ccr : Byte) : (ccr ||| 1) &&& 0xd0 = ccr &&& 0xd0 := by
  rw [BitVec.and_comm, BitVec.and_or_distrib_left, BitVec.and_comm]
  exact BitVec.or_zero

theorem adc_eq_addByte (c : Bool) :
    (m.setReg nr (adc (m.reg nr) dl c).1).setCcr
        ((m.ccr &&& 0xd0) ||| (adc (m.reg nr) dl c).2.ccr) =
      Instr.addByte nr dl (bit 8 c) m := by
  rw [Instr.addByte, setHNZVC_eq (.inl rfl), ← bitFlags_adc]
  rfl

theorem sbb_eq_subFlags (c : Bool) :
    (m.ccr &&& 0xd0) ||| (sbb (m.reg nr) dl c).2.ccr =
      Instr.subFlags nr dl (bit 8 c) m := by
  rw [Instr.subFlags, setHNZVC_eq (.inl rfl), ← bitFlags_sbb]
  rfl

theorem addSubCommon_ADDB :
    Asm.addSubCommon .ADDB nr dl m = Instr.addByte nr dl 0 m := by
  rw [← bit_false 8, ← adc_eq_addByte]
  rfl

theorem addSubCommon_ADDX :
    Asm.addSubCommon .ADDX nr dl m =
      Instr.addByte nr dl (m.ccr &&& 1) m := by
  rw [← bit_carry, ← adc_eq_addByte, ← or_one_and]
  rfl

theorem addSubCommon_SUBB :
    Asm.addSubCommon .SUBB nr dl m = Instr.subByte nr dl 0 m := by
  rw [← bit_false 8, Instr.subByte, ← sbb_eq_subFlags]
  rfl

theorem addSubCommon_CMPB :
    Asm.addSubCommon .CMPB nr dl m =
      m.setCcr (Instr.subFlags nr dl 0 m) := by
  rw [← bit_false 8, ← sbb_eq_subFlags]
  rfl

theorem HostFlags.ccr_and (flags : HostFlags) : flags.ccr &&& 0xd0 = 0 := by
  obtain ⟨carry, aux, zero, sign, overflow⟩ := flags
  cases carry <;> cases aux <;> cases zero <;> cases sign <;>
    cases overflow <;> rfl

/-- The core keeps the zero flag with one mask on each side. -/
theorem keep_zero (flags : HostFlags) (ccr : Byte) :
    ((ccr ||| 1) ||| 0x2b) &&& (flags.ccr ||| 0xd0) =
      ((ccr &&& 0xd0) ||| flags.ccr) &&& (ccr ||| ~~~4) := by
  have hflags := flags.ccr_and
  generalize flags.ccr = table at hflags ⊢
  apply BitVec.eq_of_getLsbD_eq
  intro i hi
  have hbit : (table &&& 0xd0).getLsbD i = false := by rw [hflags]; simp
  rw [BitVec.getLsbD_and] at hbit
  simp only [BitVec.getLsbD_and, BitVec.getLsbD_or, BitVec.getLsbD_not]
  interval_cases i <;> simp_all [Bool.and_comm]

theorem addSubCommon_SUBX :
    Asm.addSubCommon .SUBX nr dl m = Instr.subXByte nr dl m := by
  rw [Instr.subXByte, ← bit_carry, ← sbb_eq_subFlags, ← keep_zero]
  rfl

end Bytes

section Words

variable (opc : Word) (m : Machine)

/-- The zero flag of a word is found by a comparison of its own. -/
theorem or_zero_flag (flags : HostFlags) (bl : Byte) (zero : Bool) :
    (bl ||| iflags2ccr (flags.word &&& 0x891)) ||| (if zero then 4 else 0) =
      bl ||| { flags with zero := zero }.ccr := by
  rw [flags.iflags2ccr_without_zero, BitVec.or_assoc]
  congr 1
  obtain ⟨carry, aux, old, sign, overflow⟩ := flags
  dsimp only
  cases carry <;> cases aux <;> cases zero <;> cases sign <;>
    cases overflow <;> rfl

theorem addSubWord_add :
    Asm.addSubWord opc false true m =
      (m.setReg16 (rd16 opc) (m.reg16 (rd16 opc) + m.reg16 (rs16 opc))).setCcr
        (setHNZVC false (m.reg16 (rd16 opc)) (m.reg16 (rs16 opc))
          (m.reg16 (rd16 opc) + m.reg16 (rs16 opc)) m.ccr) := by
  have hword := adc_word (m.reg16 (rd16 opc)) (m.reg16 (rs16 opc))
  have hflags := adc_high (adc_low_carry (m.reg16 (rd16 opc))
    (m.reg16 (rs16 opc))) (by rw [← hword, msb_append])
  rw [setHNZVC_eq (.inr rfl), ← hflags, ← or_zero_flag, ← hword]
  simp only [decide_eq_true_eq]
  rfl

theorem addSubWord_flags_sub :
    let cx := m.reg16 (rd16 opc) - m.reg16 (rs16 opc)
    Asm.addSubWord opc true true m =
        (m.setReg16 (rd16 opc) cx).setCcr (Instr.subWFlags opc m) ∧
      Asm.addSubWord opc true false m =
        m.setCcr (Instr.subWFlags opc m) := by
  have hword := sbb_word (m.reg16 (rd16 opc)) (m.reg16 (rs16 opc))
  have hflags := sbb_high (sbb_low_carry (m.reg16 (rd16 opc))
    (m.reg16 (rs16 opc))) (by rw [← hword, msb_append])
  simp only [Instr.subWFlags]
  rw [setHNZVC_eq (.inr rfl), ← hflags, ← or_zero_flag, ← hword]
  simp only [decide_eq_true_eq]
  exact ⟨rfl, rfl⟩

theorem addSubWord_sub :
    Asm.addSubWord opc true true m =
      (m.setReg16 (rd16 opc)
        (m.reg16 (rd16 opc) - m.reg16 (rs16 opc))).setCcr
          (Instr.subWFlags opc m) :=
  (addSubWord_flags_sub opc m).1

theorem addSubWord_cmp :
    Asm.addSubWord opc true false m = m.setCcr (Instr.subWFlags opc m) :=
  (addSubWord_flags_sub opc m).2

theorem toNat_stepSize :
    (Instr.stepSize opc).toNat = 1 + (opcval opc).msb.toNat := by
  have hlt := (opcval opc).isLt
  rw [Instr.stepSize, BitVec.toNat_setWidth, BitVec.toNat_add,
    BitVec.toNat_ushiftRight, Nat.shiftRight_eq_div_pow, BitVec.msb_eq_decide]
  have hone : (1 : Byte).toNat = 1 := rfl
  rw [hone]
  by_cases hhigh : 2 ^ (8 - 1) ≤ (opcval opc).toNat
  · simp only [hhigh, decide_true, Bool.toNat_true]
    omega
  · simp only [hhigh, decide_false, Bool.toNat_false]
    omega

theorem adc_step (cx : Word) (c : Bool) :
    (adc (highByte cx) 0 (adc (lowByte cx) 1 c).2.carry).1 ++
        (adc (lowByte cx) 1 c).1 =
      (BitVec.ofNat 16 (cx.toNat + 1 + c.toNat)) := by
  have hc := Bool.toNat_le c
  have hcarry : (adc (lowByte cx) 1 c).2.carry =
      decide (256 ≤ cx.toNat % 256 + 1 + c.toNat) := by
    rw [← toNat_lowByte]
    exact BitVec.carry_width
  have hzero : (0 : Byte).toNat = 0 := rfl
  have hone : (1 : Byte).toNat = 1 := rfl
  apply BitVec.eq_of_toNat_eq
  rw [toNat_append, toNat_adc, toNat_adc, hcarry, toNat_highByte,
    toNat_lowByte, BitVec.toNat_ofNat, hzero, hone]
  by_cases hover : 256 ≤ cx.toNat % 256 + 1 + c.toNat
  · simp only [hover, decide_true, Bool.toNat_true]
    omega
  · simp only [hover, decide_false, Bool.toNat_false]
    omega

theorem sbb_step (cx : Word) (c : Bool) :
    (sbb (highByte cx) 0 (sbb (lowByte cx) 1 c).2.carry).1 ++
        (sbb (lowByte cx) 1 c).1 =
      (BitVec.ofNat 16 (cx.toNat + 65536 - 1 - c.toNat)) := by
  have hlt := cx.isLt
  have hc := Bool.toNat_le c
  have hcarry : (sbb (lowByte cx) 1 c).2.carry =
      decide (cx.toNat % 256 < 1 + c.toNat) := by
    rw [← toNat_lowByte]
    rfl
  have hzero : (0 : Byte).toNat = 0 := rfl
  have hone : (1 : Byte).toNat = 1 := rfl
  apply BitVec.eq_of_toNat_eq
  rw [toNat_append, toNat_sbb, toNat_sbb, hcarry, toNat_highByte,
    toNat_lowByte, BitVec.toNat_ofNat, hzero, hone]
  by_cases hborrow : cx.toNat % 256 < 1 + c.toNat
  · simp only [hborrow, decide_true, Bool.toNat_true]
    omega
  · simp only [hborrow, decide_false, Bool.toNat_false]
    omega

theorem stepWord_add :
    Asm.stepWord opc false m =
      m.setReg16 (rd16 opc)
        (m.reg16 (rd16 opc) + Instr.stepSize opc) := by
  have hsum : m.reg16 (rd16 opc) + Instr.stepSize opc =
      BitVec.ofNat 16 ((m.reg16 (rd16 opc)).toNat + 1 +
        (opcval opc).msb.toNat) := by
    apply BitVec.eq_of_toNat_eq
    rw [BitVec.toNat_add, toNat_stepSize, BitVec.toNat_ofNat, Nat.add_assoc]
  rw [hsum, ← adc_step]
  rfl

theorem stepWord_sub :
    Asm.stepWord opc true m =
      m.setReg16 (rd16 opc)
        (m.reg16 (rd16 opc) - Instr.stepSize opc) := by
  have hc := Bool.toNat_le (opcval opc).msb
  have hdiff : m.reg16 (rd16 opc) - Instr.stepSize opc =
      BitVec.ofNat 16 ((m.reg16 (rd16 opc)).toNat + 65536 - 1 -
        (opcval opc).msb.toNat) := by
    apply BitVec.eq_of_toNat_eq
    rw [BitVec.toNat_sub, toNat_stepSize, BitVec.toNat_ofNat]
    omega
  rw [hdiff, ← sbb_step]
  rfl

end Words

section Steps

variable (opc : Word) (m : Machine)

/-- The overflow of a step by one shows in its result. -/
theorem overflow_inc (x : Byte) :
    decide (x.msb = (1 : Byte).msb ∧ (x + 1).msb ≠ x.msb) =
      decide (x + 1 = 0x80) := by
  have hlt := x.isLt
  have hone : (1 : Byte).msb = false := rfl
  rw [hone, BitVec.msb_eq_decide, BitVec.msb_eq_decide, decide_eq_decide,
    ← BitVec.toNat_inj, BitVec.toNat_add]
  have hsize : (1 : Byte).toNat = 1 := rfl
  have hlast : (0x80 : Byte).toNat = 128 := rfl
  rw [hsize, hlast, decide_eq_false_iff_not, ne_eq, decide_eq_decide]
  omega

theorem overflow_dec (x : Byte) :
    decide (x.msb ≠ (1 : Byte).msb ∧ (x - 1).msb ≠ x.msb) =
      decide (x - 1 = 0x7f) := by
  have hlt := x.isLt
  have hone : (1 : Byte).msb = false := rfl
  rw [hone, BitVec.msb_eq_decide, BitVec.msb_eq_decide, decide_eq_decide,
    ← BitVec.toNat_inj, BitVec.toNat_sub]
  have hsize : (1 : Byte).toNat = 1 := rfl
  have hlast : (0x7f : Byte).toNat = 127 := rfl
  rw [hsize, hlast, ne_eq, decide_eq_false_iff_not, ne_eq, decide_eq_decide]
  omega

/-- The flags of a step by one: those of a move, and the overflow. -/
theorem step_flags (flags : HostFlags) (dest ccr last : Byte)
    (hzero : flags.zero = decide (dest = 0)) (hsign : flags.sign = dest.msb)
    (hoverflow : flags.overflow = decide (dest = last)) :
    (ccr &&& 0xf1) ||| iflags2ccr (flags.word &&& 0x8c0) =
      if dest = last then setNZV dest ccr ||| 0x02 else setNZV dest ccr := by
  rw [flags.iflags2ccr_result, HostFlags.iflags2ccr_all, hzero, hsign,
    hoverflow, setNZV, setNZ_eq le_rfl]
  generalize (if decide (dest = 0) = true then (0x04 : Byte) else 0) = zero
  generalize (if dest.msb = true then (0x08 : Byte) else 0) = sign
  have hnone (bl : Byte) : bl ||| 0 = bl := BitVec.or_zero
  by_cases hlast : dest = last
  · simp only [hlast, decide_true, if_true, Bool.false_eq_true, if_false,
      hnone, BitVec.or_assoc]
  · simp only [hlast, decide_false, Bool.false_eq_true, if_false, hnone]

theorem stepByte_inc :
    Asm.stepByte opc false m =
      (m.setReg (rd opc) (m.reg (rd opc) + 1)).setCcr
        (if m.reg (rd opc) + 1 = 0x80 then
          setNZV (m.reg (rd opc) + 1) m.ccr ||| 0x02
        else setNZV (m.reg (rd opc) + 1) m.ccr) := by
  have hdest : (adc (m.reg (rd opc)) 1 false).1 = m.reg (rd opc) + 1 := by
    rw [adc, bit_false]
    exact BitVec.add_zero _
  have hoverflow : (adc (m.reg (rd opc)) 1 false).2.overflow =
      decide (m.reg (rd opc) + 1 = 0x80) := by
    rw [← overflow_inc, ← hdest]
    rfl
  rw [← hdest] at hoverflow ⊢
  rw [← step_flags _ (adc (m.reg (rd opc)) 1 false).1 m.ccr 0x80 rfl rfl
    hoverflow]
  rfl

theorem stepByte_dec :
    Asm.stepByte opc true m =
      (m.setReg (rd opc) (m.reg (rd opc) - 1)).setCcr
        (if m.reg (rd opc) - 1 = 0x7f then
          setNZV (m.reg (rd opc) - 1) m.ccr ||| 0x02
        else setNZV (m.reg (rd opc) - 1) m.ccr) := by
  have hdest : (sbb (m.reg (rd opc)) 1 false).1 = m.reg (rd opc) - 1 := by
    rw [sbb, bit_false]
    exact BitVec.sub_zero _
  have hoverflow : (sbb (m.reg (rd opc)) 1 false).2.overflow =
      decide (m.reg (rd opc) - 1 = 0x7f) := by
    rw [← overflow_dec, ← hdest]
    rfl
  rw [← hdest] at hoverflow ⊢
  rw [← step_flags _ (sbb (m.reg (rd opc)) 1 false).1 m.ccr 0x7f rfl rfl
    hoverflow]
  rfl

end Steps

section ShiftsAndBits

variable {opc : Word} (m : Machine)

/-- With bit 7 clear the number of the bit has three bits. -/
theorem toNat_rs (hlegal : Asm.Legal opc 0x80) :
    (rs opc).toNat = Instr.bitNr opc := by
  have hmask : (0x80 : Byte) = BitVec.twoPow 8 7 := rfl
  have hhigh : (opcval opc).getLsbD 7 = false := by
    have hzero : opcval opc &&& 0x80 = 0 := hlegal
    rw [and_mask _ 7 hmask] at hzero
    by_contra hset
    rw [Bool.not_eq_false] at hset
    rw [if_pos hset] at hzero
    exact absurd hzero (by decide)
  have hsplit : rs opc = 0#1 ++ rs16 opc := by
    apply BitVec.eq_of_getLsbD_eq
    intro i hi
    rw [opcval, BitVec.getLsbD_extractLsb'] at hhigh
    rw [BitVec.getLsbD_append, rs, rs16, BitVec.getLsbD_extractLsb',
      BitVec.getLsbD_extractLsb']
    interval_cases i <;> simp_all
  rw [hsplit, Instr.bitNr, BitVec.toNat_append]
  simp

theorem testedBit_eq {n : ℕ} (hn : n < 8) (val ccr : Byte) :
    Asm.testedBit n val ccr = Instr.testBit n val ccr := by
  apply BitVec.eq_of_getLsbD_eq
  intro i hi
  simp only [Asm.testedBit, Instr.testBit, BitVec.getLsbD_xor,
    BitVec.getLsbD_or, BitVec.getLsbD_and, BitVec.getLsbD_shiftLeft,
    BitVec.getLsbD_ushiftRight, BitVec.getLsbD_not]
  interval_cases i <;> simp [hn]

/-- The bit that the shift moves out. -/
theorem ushiftRight_seven (val : Byte) :
    val >>> 7 = if val.msb then (1 : Byte) else 0 := by
  have hone : val >>> 7 = (val >>> 7) &&& BitVec.twoPow 8 0 := by
    apply BitVec.eq_of_getLsbD_eq
    intro i hi
    rw [BitVec.getLsbD_and, BitVec.getLsbD_ushiftRight]
    interval_cases i <;> simp
  rw [hone, and_mask _ 0 rfl, BitVec.getLsbD_ushiftRight,
    BitVec.msb_eq_getLsbD_last]
  rfl

theorem isArithmetic_eq (opc : Word) :
    Instr.isArithmetic opc = (opcval opc).getLsbD 7 := by
  have hmask : (0x80 : Byte) = BitVec.twoPow 8 7 := rfl
  rw [Instr.isArithmetic, and_mask _ 7 hmask]
  cases (opcval opc).getLsbD 7 <;> rfl

/-- The second byte of the mask comes from the opcode. -/
def shlMask (opc : Word) : BitVec 12 :=
  ((opcval opc >>> 4).setWidth 12 <<< 8) ||| (0x0ff : BitVec 12)

theorem shlMask_eq (opc : Word) :
    (0x8c1 : BitVec 12) &&& shlMask opc =
      if Instr.isArithmetic opc then 0x8c1 else 0x0c1 := by
  rw [isArithmetic_eq, shlMask]
  apply BitVec.eq_of_getLsbD_eq
  intro i hi
  simp only [BitVec.getLsbD_and, BitVec.getLsbD_or, BitVec.getLsbD_shiftLeft,
    BitVec.getLsbD_setWidth, BitVec.getLsbD_ushiftRight]
  cases hbit : (opcval opc).getLsbD 7 <;> interval_cases i <;>
    simp +decide [-BitVec.getLsbD_eq_getElem, hbit]

/-- The overflow flag stays only for the arithmetic shift. -/
theorem shl_flags (opc : Word) (flags : HostFlags) (haux : flags.aux = false) :
    iflags2ccr (flags.word &&& (0x8c1 : BitVec 12) &&& shlMask opc) =
      { flags with
        overflow := Instr.isArithmetic opc && flags.overflow }.ccr := by
  rw [BitVec.and_assoc, shlMask_eq]
  obtain ⟨carry, aux, zero, sign, overflow⟩ := flags
  cases haux
  cases Instr.isArithmetic opc <;> cases carry <;> cases zero <;>
    cases sign <;> cases overflow <;> rfl

/-- Where the sign changes, the carry is not the new sign. -/
theorem shl_overflow (dest ccr : Byte) (carry : Bool) :
    ((dest >>> 7) ^^^ ((ccr &&& (0xf0 : Byte)) |||
        if carry then (1 : Byte) else 0)) &&& (1 : Byte) ≠ 0 ↔
      dest.msb ≠ carry := by
  have hmask : (1 : Byte) = BitVec.twoPow 8 0 := rfl
  rw [ushiftRight_seven, and_mask _ 0 hmask]
  cases dest.msb <;> cases carry <;> simp

theorem or_parts (bl zero sign overflow carry : Byte) :
    bl ||| (zero ||| sign ||| overflow ||| 0 ||| carry) =
      ((bl ||| carry) ||| overflow) ||| (zero ||| sign) := by
  have hnone (bl : Byte) : bl ||| 0 = bl := BitVec.or_zero
  rw [hnone]
  ac_rfl

theorem or_ite (p : Prop) [Decidable p] (bl flag : Byte) :
    bl ||| (if p then flag else 0) = if p then bl ||| flag else bl := by
  split_ifs
  · rfl
  · exact BitVec.or_zero

theorem shl_ccr (opc : Word) (val ccr : Byte) :
    (ccr &&& (0xf0 : Byte)) ||| iflags2ccr ((shl val).2.word &&&
        (0x8c1 : BitVec 12) &&& shlMask opc) =
      let bl := (ccr &&& (0xf0 : Byte)) ||| (val >>> 7)
      setNZ (val <<< 1)
        (if Instr.isArithmetic opc ∧
            (((val <<< 1) >>> 7) ^^^ bl) &&& (1 : Byte) ≠ 0 then bl ||| 0x02
          else bl) := by
  dsimp only
  rw [shl_flags opc _ rfl, ushiftRight_seven val]
  simp only [shl_overflow]
  rw [setNZ_eq le_rfl, HostFlags.iflags2ccr_all]
  simp only [shl, Bool.and_eq_true, decide_eq_true_eq, Bool.false_eq_true,
    if_false]
  refine (or_parts _ _ _ _ _).trans ?_
  exact congrArg (· ||| _) (or_ite _ _ _)

end ShiftsAndBits

section Matches

variable {opc : Word} {m : Machine}

theorem matches_byteRegister {op : Asm.AddSub} {runC : Machine → Machine}
    (hrun : Asm.addSubCommon op (rd opc) (m.reg (rs opc)) m = runC m)
    (hframe : runC m.fetched = (runC m).fetched) :
    Matches (Asm.byteRegister opc op m) (compute false runC m.fetched) :=
  matches_onRegisters (legal_zero opc) rfl hrun hframe

theorem matches_byteImmediate {op : Asm.AddSub} {runC : Machine → Machine}
    (hrun : Asm.addSubCommon op (ri opc) (opcval opc) m = runC m)
    (hframe : runC m.fetched = (runC m).fetched) :
    Matches (Asm.byteImmediate opc op m) (compute false runC m.fetched) :=
  matches_onRegisters (legal_zero opc) rfl hrun hframe

theorem matches_stC (hlegal : Asm.Legal opc 0xf0) :
    Matches (Asm.stC opc m) (Instr.stC opc m.fetched) :=
  matches_onRegisters hlegal hlegal.not_illegal rfl rfl

theorem matches_addB :
    Matches (Asm.byteRegister opc .ADDB m) (Instr.addB opc m.fetched) :=
  matches_byteRegister (addSubCommon_ADDB _ _ m) rfl

theorem matches_addX :
    Matches (Asm.byteRegister opc .ADDX m) (Instr.addX opc m.fetched) :=
  matches_byteRegister (addSubCommon_ADDX _ _ m) rfl

theorem matches_subB :
    Matches (Asm.byteRegister opc .SUBB m) (Instr.subB opc m.fetched) :=
  matches_byteRegister (addSubCommon_SUBB _ _ m) rfl

theorem matches_subX :
    Matches (Asm.byteRegister opc .SUBX m) (Instr.subX opc m.fetched) :=
  matches_byteRegister (addSubCommon_SUBX _ _ m) rfl

theorem matches_cmpB :
    Matches (Asm.byteRegister opc .CMPB m) (Instr.cmpB opc m.fetched) :=
  matches_byteRegister (addSubCommon_CMPB _ _ m) rfl

theorem matches_addBI :
    Matches (Asm.byteImmediate opc .ADDB m) (Instr.addBI opc m.fetched) :=
  matches_byteImmediate (addSubCommon_ADDB _ _ m) rfl

theorem matches_addXI :
    Matches (Asm.byteImmediate opc .ADDX m) (Instr.addXI opc m.fetched) :=
  matches_byteImmediate (addSubCommon_ADDX _ _ m) rfl

theorem matches_subXI :
    Matches (Asm.byteImmediate opc .SUBX m) (Instr.subXI opc m.fetched) :=
  matches_byteImmediate (addSubCommon_SUBX _ _ m) rfl

theorem matches_cmpBI :
    Matches (Asm.byteImmediate opc .CMPB m) (Instr.cmpBI opc m.fetched) :=
  matches_byteImmediate (addSubCommon_CMPB _ _ m) rfl

theorem matches_addW (hlegal : Asm.Legal opc 0x88) :
    Matches (Asm.onRegisters opc 0x88 (Asm.addSubWord opc false true) m)
      (Instr.addW opc m.fetched) :=
  matches_onRegisters hlegal hlegal.not_illegal (addSubWord_add opc m) rfl

theorem matches_subW (hlegal : Asm.Legal opc 0x88) :
    Matches (Asm.onRegisters opc 0x88 (Asm.addSubWord opc true true) m)
      (Instr.subW opc m.fetched) :=
  matches_onRegisters hlegal hlegal.not_illegal (addSubWord_sub opc m) rfl

theorem matches_cmpW (hlegal : Asm.Legal opc 0x88) :
    Matches (Asm.onRegisters opc 0x88 (Asm.addSubWord opc true false) m)
      (Instr.cmpW opc m.fetched) :=
  matches_onRegisters hlegal hlegal.not_illegal (addSubWord_cmp opc m) rfl

theorem matches_addS (hlegal : Asm.Legal opc 0x78) :
    Matches (Asm.onRegisters opc 0x78 (Asm.stepWord opc false) m)
      (Instr.addS opc m.fetched) :=
  matches_onRegisters hlegal hlegal.not_illegal (stepWord_add opc m) rfl

theorem matches_subS (hlegal : Asm.Legal opc 0x78) :
    Matches (Asm.onRegisters opc 0x78 (Asm.stepWord opc true) m)
      (Instr.subS opc m.fetched) :=
  matches_onRegisters hlegal hlegal.not_illegal (stepWord_sub opc m) rfl

theorem matches_inc (hlegal : Asm.Legal opc 0xf0) :
    Matches (Asm.onRegisters opc 0xf0 (Asm.stepByte opc false) m)
      (Instr.inc opc m.fetched) :=
  matches_onRegisters hlegal hlegal.not_illegal (stepByte_inc opc m) rfl

theorem matches_dec (hlegal : Asm.Legal opc 0xf0) :
    Matches (Asm.onRegisters opc 0xf0 (Asm.stepByte opc true) m)
      (Instr.dec opc m.fetched) :=
  matches_onRegisters hlegal hlegal.not_illegal (stepByte_dec opc m) rfl

/-- The C code also stores the flags, which stay. -/
theorem matches_bitImmediate {op : Instr.BitOp}
    {change : Byte → Byte → Byte} (hlegal : Asm.Legal opc 0x80)
    (hillegal : op.illegal = decide (opcval opc &&& 0x80 ≠ 0))
    (hrun : op.run = fun _ val ccr =>
      (change val ((1 : Byte) <<< Instr.bitNr opc), ccr)) :
    Matches (Asm.bitImmediate opc change m)
      (Instr.bitReg opc op m.fetched) := by
  apply matches_onRegisters hlegal (hillegal.trans hlegal.not_illegal)
  · dsimp only
    rw [hrun, toNat_rs hlegal]
    rfl
  · dsimp only
    rw [hrun]
    rfl

/-- The C code also stores the register, which stays. -/
theorem matches_bitTest {op : Instr.BitOp} {mask : Byte} {asm : Asm Unit}
    {f : (BitVec 4 → Byte) → ℕ} (hlegal : Asm.Legal opc mask)
    (hillegal : op.illegal = false)
    (hrun : op.run = fun reg val ccr =>
      (val, Instr.testBit (f reg) val ccr))
    (hasm : asm = Asm.onRegisters opc mask fun m =>
      m.setCcr (Instr.testBit (f m.reg) (m.reg (rd opc)) m.ccr)) :
    Matches (asm m) (Instr.bitReg opc op m.fetched) := by
  rw [hasm]
  apply matches_onRegisters hlegal hillegal
  · dsimp only
    rw [hrun]
    simp only [Machine.setReg, Function.update_eq_self]
  · dsimp only
    rw [hrun]
    rfl

theorem matches_bTstI (hlegal : Asm.Legal opc 0x80) :
    Matches (Asm.bTstI opc m)
      (Instr.bitReg opc (Instr.bTstI opc) m.fetched) := by
  apply matches_bitTest (f := fun _ => Instr.bitNr opc) hlegal
    hlegal.not_illegal rfl
  simp only [Asm.bTstI, toNat_rs hlegal,
    testedBit_eq (n := Instr.bitNr opc) (rs16 opc).isLt]

theorem matches_bTst :
    Matches (Asm.bTst opc m)
      (Instr.bitReg opc (Instr.bTst opc) m.fetched) := by
  apply matches_bitTest (f := Instr.bitInReg opc) (legal_zero opc) rfl rfl
  have hnr (reg : BitVec 4 → Byte) :
      Asm.testedBit (reg (rs opc) &&& 7).toNat =
        Instr.testBit (Instr.bitInReg opc reg) := by
    funext val ccr
    apply testedBit_eq
    rw [BitVec.toNat_and]
    exact Nat.lt_of_le_of_lt Nat.and_le_right (by decide)
  simp only [Asm.bTst, hnr]

theorem matches_movB :
    Matches (Asm.movB opc m) (Instr.movB opc m.fetched) :=
  matches_onRegisters (legal_zero opc) rfl
    (congrArg ((m.setReg (rd opc) (m.reg (rs opc))).setCcr ·)
      (asmSetNZ_eq le_rfl (m.reg (rs opc)) m.ccr)) rfl

theorem matches_movBI :
    Matches (Asm.movBI opc m) (Instr.movBI opc m.fetched) :=
  matches_onRegisters (legal_zero opc) rfl
    (congrArg ((m.setReg (ri opc) (opcval opc)).setCcr ·)
      (asmSetNZ_eq le_rfl (opcval opc) m.ccr)) rfl

theorem matches_shL (hlegal : Asm.Legal opc 0x70) :
    Matches (Asm.shL opc m) (Instr.shL opc m.fetched) :=
  matches_onRegisters hlegal hlegal.not_illegal
    (congrArg ((m.setReg (rd opc) (m.reg (rd opc) <<< 1)).setCcr ·)
      (shl_ccr opc (m.reg (rd opc)) m.ccr)) rfl

theorem logic_eq (nr : BitVec 4) (dest : Byte) (m : Machine) :
    Asm.logic nr dest m = Instr.logic nr dest m := by
  rw [Asm.logic, asmSetNZ_eq le_rfl, Instr.logic]

theorem matches_logicI {op : Byte → Byte → Byte} :
    Matches (Asm.logicI opc op m)
      (compute false (fun m => Instr.logic (ri opc)
        (op (m.reg (ri opc)) (opcval opc)) m) m.fetched) :=
  matches_onRegisters (legal_zero opc) rfl (logic_eq _ _ m) rfl

theorem matches_logicR {op : Byte → Byte → Byte} :
    Matches (Asm.logicR opc op m)
      (compute false (fun m => Instr.logic (rd opc)
        (op (m.reg (rd opc)) (m.reg (rs opc))) m) m.fetched) :=
  matches_onRegisters (legal_zero opc) rfl (logic_eq _ _ m) rfl

end Matches

end BrickEmu
