import BrickEmu.AsmPorts

/-!
# Bit instructions of the core on memory

The C code reads the operand before the second opcode, the core after it.  The
core turns the second opcode into one of three operations: set, invert and
clear.
-/

namespace BrickEmu

open Program

variable {opc : Word} {m : Machine}

section Operations

theorem bitResult_set (cl dl : Byte) :
    Asm.bitResult 0 cl dl = dl ||| (1 <<< cl.toNat) :=
  rfl

theorem bitResult_not (cl dl : Byte) :
    Asm.bitResult 1 cl dl = dl ^^^ (1 <<< cl.toNat) :=
  rfl

theorem bitResult_clr (cl dl : Byte) :
    Asm.bitResult 2 cl dl = dl &&& ~~~((1 : Byte) <<< cl.toNat) := by
  have hclear : Asm.bitResult 2 cl dl =
      (dl ||| ((1 : Byte) <<< cl.toNat)) ^^^ ((1 : Byte) <<< cl.toNat) := rfl
  rw [hclear]
  apply BitVec.eq_of_getLsbD_eq
  intro i hi
  simp only [BitVec.getLsbD_xor, BitVec.getLsbD_or, BitVec.getLsbD_and,
    BitVec.getLsbD_not, hi, decide_true, Bool.true_and]
  cases dl.getLsbD i <;> cases ((1 : Byte) <<< cl.toNat).getLsbD i <;> rfl

/-- What the second opcode does is the operation on the bit of the number. -/
def Selected (op : Instr.BitOp) (reg : BitVec 4 → Byte) (ccr sel cl : Byte) :
    Prop :=
  ∀ val, op.run reg val ccr = (Asm.bitResult sel cl val, ccr)

variable {b : Word}

/-- The second opcodes that write. -/
theorem bitop_cases {op : Instr.BitOp} (h : Instr.bitop b true = some op) :
    (b.extractLsb' 8 8 = 0x60 ∧ op = Instr.bSet b) ∨
      (b.extractLsb' 8 8 = 0x61 ∧ op = Instr.bNot b) ∨
      (b.extractLsb' 8 8 = 0x62 ∧ op = Instr.bClr b) ∨
      (b.extractLsb' 8 8 = 0x67 ∧ op = Instr.bSt b) ∨
      (b.extractLsb' 8 8 = 0x70 ∧ op = Instr.bSetI b) ∨
      (b.extractLsb' 8 8 = 0x71 ∧ op = Instr.bNotI b) ∨
      (b.extractLsb' 8 8 = 0x72 ∧ op = Instr.bClrI b) := by
  have hhigh {n : ℕ} (heq : (b >>> 8).toNat = n) :
      b.extractLsb' 8 8 = BitVec.ofNat 8 n := by
    rw [← heq]
    rfl
  unfold Instr.bitop at h
  split at h <;> first
    | contradiction
    | next hcode =>
        obtain rfl := Option.some.inj h
        simp [hhigh hcode]

/-- The number of a bit in the second opcode. -/
theorem toNat_ushiftRight_opcval :
    (opcval b >>> 4 &&& 7).toNat = Instr.bitNr b := by
  have hpart : opcval b >>> 4 &&& 7 = (rs16 b).setWidth 8 := by
    apply BitVec.eq_of_getLsbD_eq
    intro i hi
    simp only [BitVec.getLsbD_and, BitVec.getLsbD_ushiftRight, opcval, rs16,
      BitVec.getLsbD_setWidth, BitVec.getLsbD_extractLsb']
    interval_cases i <;> simp
  rw [hpart, Instr.bitNr, BitVec.toNat_setWidth]
  have hlt := (rs16 b).isLt
  omega

/-- Without bit 7 it is the whole digit. -/
theorem ushiftRight_opcval (hzero : opcval b &&& 0x80 = 0) :
    opcval b >>> 4 = opcval b >>> 4 &&& 7 ∧ opcval b >>> 4 &&& 8 = 0 := by
  have hmask : (0x80 : Byte) = BitVec.twoPow 8 7 := rfl
  have hbit := (and_mask_eq_zero (opcval b) 7 (by decide) hmask).mp hzero
  constructor
  · apply BitVec.eq_of_getLsbD_eq
    intro i hi
    rw [BitVec.getLsbD_and, BitVec.getLsbD_ushiftRight]
    interval_cases i <;> simp_all
  · have hmask' : (8 : Byte) = BitVec.twoPow 8 3 := rfl
    rw [and_mask_eq_zero _ 3 (by decide) hmask', BitVec.getLsbD_ushiftRight]
    exact hbit

theorem setWidth_ushiftRight_opcval :
    (opcval b >>> 4).setWidth 4 = rs b := by
  apply BitVec.eq_of_getLsbD_eq
  intro i hi
  simp only [BitVec.getLsbD_setWidth, BitVec.getLsbD_ushiftRight, opcval, rs,
    BitVec.getLsbD_extractLsb']
  interval_cases i <;> simp

end Operations

section Selection

variable {b : Word} {dl : Byte}

theorem leaveIf_bind_not {α : Type} {p : Prop} [Decidable p] {exit : AsmExit}
    {last : Machine → Machine} {f : Unit → Asm α} (h : ¬p) :
    (leaveIf (fun _ => decide p) exit last >>= f) m = f () m := by
  apply leaveIf_bind_neg
  exact decide_eq_false h

/-- The first opcode byte selects one of the forms below. -/
theorem bitSelection_start (hlow : m.memory (m.pc.toNat + 3) = opcval b)
    (hnibble : opcval b &&& 0x0f = 0)
    (hdl : m.memory (m.pc.toNat + 2) ^^^ 0x60 = dl)
    (hin : dl &&& ~~~0x13 = 0) (hsel : dl &&& 3 ≠ 3) {cl : Byte}
    (hcl : (if dl &&& 0x10 ≠ 0 then opcval b >>> 4
      else m.reg ((opcval b >>> 4).setWidth 4) &&& 7) = cl)
    (height : cl &&& 8 = 0) :
    Asm.bitSelection m = (.ok (dl &&& 3, cl), m) := by
  rw [Asm.bitSelection, gets_bind, hlow,
    leaveIf_bind_not (not_not_intro hnibble), gets_bind, hdl, if_pos hin,
    gets_bind, hcl, leaveIf_bind_not (not_not_intro height),
    leaveIf_bind_not hsel]
  rfl

theorem bitSelection_immediate
    (hlow : m.memory (m.pc.toNat + 3) = opcval b)
    (hnibble : opcval b &&& 0x0f = 0)
    (hdl : m.memory (m.pc.toNat + 2) ^^^ 0x60 = dl)
    (hin : dl &&& ~~~0x13 = 0) (hsel : dl &&& 3 ≠ 3)
    (hform : dl &&& 0x10 ≠ 0) (hseven : opcval b &&& 0x80 = 0) :
    Asm.bitSelection m = (.ok (dl &&& 3, opcval b >>> 4), m) :=
  bitSelection_start hlow hnibble hdl hin hsel (if_pos hform)
    (ushiftRight_opcval hseven).2

theorem bitSelection_register
    (hlow : m.memory (m.pc.toNat + 3) = opcval b)
    (hnibble : opcval b &&& 0x0f = 0)
    (hdl : m.memory (m.pc.toNat + 2) ^^^ 0x60 = dl)
    (hin : dl &&& ~~~0x13 = 0) (hsel : dl &&& 3 ≠ 3)
    (hform : dl &&& 0x10 = 0) :
    Asm.bitSelection m = (.ok (dl &&& 3, m.reg (rs b) &&& 7), m) := by
  have hnot : ¬dl &&& 0x10 ≠ 0 := not_not_intro hform
  apply bitSelection_start hlow hnibble hdl hin hsel
  · rw [if_neg hnot, setWidth_ushiftRight_opcval]
  · rw [BitVec.and_assoc]
    exact BitVec.and_zero

theorem double_and_three (x : Byte) :
    (x + x) &&& 3 = if x.getLsbD 0 then (2 : Byte) else 0 := by
  have hbit : x.getLsbD 0 = decide (x.toNat % 2 = 1) := by
    rw [BitVec.getLsbD, Nat.testBit_zero]
  have hmod : ((x + x) &&& 3).toNat = (x + x).toNat % 4 := by
    rw [BitVec.toNat_and]
    exact Nat.and_two_pow_sub_one_eq_mod _ 2
  apply BitVec.eq_of_toNat_eq
  rw [hmod, BitVec.toNat_add, hbit]
  by_cases hodd : x.toNat % 2 = 1
  · simp only [hodd, decide_true, if_true]
    have htwo : (2 : Byte).toNat = 2 := rfl
    omega
  · simp only [hodd, decide_false, Bool.false_eq_true, if_false]
    have hzero : (0 : Byte).toNat = 0 := rfl
    omega

/-- The bit that `BST` stores. -/
theorem bitSelection_store (hlow : m.memory (m.pc.toNat + 3) = opcval b)
    (hnibble : opcval b &&& 0x0f = 0)
    (hdl : m.memory (m.pc.toNat + 2) ^^^ 0x60 = 7) :
    ∃ sel, Asm.bitSelection m = (.ok (sel, opcval b >>> 4 &&& 7), m) ∧
      sel = if (m.ccr ^^^ Instr.invert b) &&& 1 ≠ 0 then 0 else 2 := by
  have hseven : (7 : Byte) &&& ~~~0x13 ≠ 0 := by decide
  rw [Asm.bitSelection, gets_bind, hlow,
    leaveIf_bind_not (not_not_intro hnibble), gets_bind, hdl, if_neg hseven,
    Asm.cleanUpIf, leaveIf_bind_not (by decide), gets_bind]
  refine ⟨_, rfl, ?_⟩
  have hmask : (1 : Byte) = BitVec.twoPow 8 0 := rfl
  have hcarry : (opcval b >>> 4 >>> 3 ^^^ m.ccr ^^^ 1).getLsbD 0 =
      !(m.ccr ^^^ Instr.invert b).getLsbD 0 := by
    rw [hmask, Instr.invert]
    simp only [BitVec.getLsbD_xor, BitVec.getLsbD_ushiftRight,
      BitVec.getLsbD_twoPow]
    cases m.ccr.getLsbD 0 <;> cases (opcval b).getLsbD 7 <;> simp_all
  rw [double_and_three, hcarry, and_mask _ 0 hmask]
  cases (m.ccr ^^^ Instr.invert b).getLsbD 0 <;> rfl

/-- Each of the second opcodes is one of the three operations. -/
theorem bitSelection_eq (hhigh : m.memory (m.pc.toNat + 2) = b.extractLsb' 8 8)
    (hlow : m.memory (m.pc.toNat + 3) = opcval b)
    (hlegal : Asm.BitopLegal b) :
    ∃ op sel cl, Instr.bitop b true = some op ∧ op.illegal = false ∧
      Asm.bitSelection m = (.ok (sel, cl), m) ∧
        Selected op m.reg m.ccr sel cl := by
  obtain ⟨hnibble, op, hop, hillegal⟩ := hlegal
  have hdl {code : Byte} (heq : b.extractLsb' 8 8 = code) :
      m.memory (m.pc.toNat + 2) ^^^ 0x60 = code ^^^ 0x60 := by
    rw [hhigh, heq]
  have himmediate (hseven : opcval b &&& 0x80 = 0) :
      (opcval b >>> 4).toNat = Instr.bitNr b := by
    rw [(ushiftRight_opcval hseven).1, toNat_ushiftRight_opcval]
  rcases bitop_cases hop with ⟨hcode, rfl⟩ | ⟨hcode, rfl⟩ | ⟨hcode, rfl⟩ |
    ⟨hcode, rfl⟩ | ⟨hcode, rfl⟩ | ⟨hcode, rfl⟩ | ⟨hcode, rfl⟩
  · refine ⟨_, _, _, hop, rfl, bitSelection_register hlow hnibble (hdl hcode)
      (by decide) (by decide) (by decide), fun val => ?_⟩
    exact congrArg (·, m.ccr) (bitResult_set _ val).symm
  · refine ⟨_, _, _, hop, rfl, bitSelection_register hlow hnibble (hdl hcode)
      (by decide) (by decide) (by decide), fun val => ?_⟩
    exact congrArg (·, m.ccr) (bitResult_not _ val).symm
  · refine ⟨_, _, _, hop, rfl, bitSelection_register hlow hnibble (hdl hcode)
      (by decide) (by decide) (by decide), fun val => ?_⟩
    exact congrArg (·, m.ccr) (bitResult_clr _ val).symm
  · obtain ⟨sel, hselect, hsel⟩ := bitSelection_store hlow hnibble
      (hdl hcode)
    refine ⟨_, _, _, hop, rfl, hselect, fun val => ?_⟩
    simp only [Instr.bSt]
    split_ifs at hsel ⊢ with hstored
    · rw [hsel, bitResult_set, toNat_ushiftRight_opcval]
    · rw [hsel, bitResult_clr, toNat_ushiftRight_opcval]
  · have hseven : opcval b &&& 0x80 = 0 :=
      not_not.mp (of_decide_eq_false hillegal)
    refine ⟨_, _, _, hop, hillegal, bitSelection_immediate hlow hnibble
      (hdl hcode) (by decide) (by decide) (by decide) hseven, fun val => ?_⟩
    simp only [Instr.bSetI, ← himmediate hseven]
    exact congrArg (·, m.ccr) (bitResult_set _ val).symm
  · have hseven : opcval b &&& 0x80 = 0 :=
      not_not.mp (of_decide_eq_false hillegal)
    refine ⟨_, _, _, hop, hillegal, bitSelection_immediate hlow hnibble
      (hdl hcode) (by decide) (by decide) (by decide) hseven, fun val => ?_⟩
    simp only [Instr.bNotI, ← himmediate hseven]
    exact congrArg (·, m.ccr) (bitResult_not _ val).symm
  · have hseven : opcval b &&& 0x80 = 0 :=
      not_not.mp (of_decide_eq_false hillegal)
    refine ⟨_, _, _, hop, hillegal, bitSelection_immediate hlow hnibble
      (hdl hcode) (by decide) (by decide) (by decide) hseven, fun val => ?_⟩
    simp only [Instr.bClrI, ← himmediate hseven]
    exact congrArg (·, m.ccr) (bitResult_clr _ val).symm

end Selection

section Memory

theorem getOpcode_at (heven : m.pc &&& 1 = 0)
    (htrap : m.wordTrap MEMTYPE_BREAKPOINT m.pc = false)
    (hplain : m.isDiv m.pc.toNat = false) :
    getOpcode m = (.ok (m.peekWord m.pc.toNat), m.fetched) := by
  rw [getOpcode, trapIf_bind (by exact htrap), act_bind,
    Machine.getWordCycles_plain heven hplain]
  rfl

/-- A bit instruction of the C code that leaves the flags. -/
theorem bitMemory_eq {indirect : Bool} {addr b : Word} {op : Instr.BitOp}
    {val result : Byte} {m' : Machine}
    (hread : readByte addr m = (.ok val, m'))
    (hfetch : getOpcode m' = (.ok b, m'.fetched))
    (hnibble : opcval b &&& 0x0f = 0) (hop : Instr.bitop b true = some op)
    (hillegal : op.illegal = false)
    (hrun : op.run m'.reg val m'.ccr = (result, m'.ccr))
    (htrap : m'.byteTrap MEMTYPE_WRITETRAP addr = false) :
    Instr.bitMemory true indirect addr m =
      (.ok (), m'.fetched.setByteCycles addr result) := by
  have hlegal : decide (indirect = true ∧ opcval b &&& 0x0f ≠ 0) = false :=
    decide_eq_false fun h => h.2 hnibble
  have hrun' : op.run m'.fetched.reg val m'.fetched.ccr = (result, m'.ccr) :=
    hrun
  rw [Instr.bitMemory, bind_ok hread, bind_ok hfetch, illegalIf_bind hlegal,
    hop]
  dsimp only
  rw [illegalIf_bind hillegal, gets_bind, hrun', change_bind, if_pos rfl]
  exact trapIf_bind htrap

theorem matches_bitops1 {indirect : Bool} {addr : Word}
    (heven : m.pc &&& 1 = 0) (hsafe : Asm.BitSafe m addr) :
    Matches (Asm.bitops1 addr m)
      (Instr.bitMemory true indirect addr m.fetched) := by
  obtain ⟨hplain, hbreak, hlegal, hmask, hport, hquiet, hother⟩ := hsafe
  have hnext := toNat_add_two heven hplain.1
  rw [Asm.bitops1]
  apply matches_cleanUpIf
  intro hdiv
  have hsecond : m.peekWord (m.pc + 2).toNat =
      m.memory (m.pc.toNat + 2) ++ m.memory (m.pc.toNat + 3) := by
    rw [hnext]
    rfl
  have hlow : m.memory (m.pc.toNat + 3) =
      opcval (m.peekWord (m.pc + 2).toNat) := by
    rw [hsecond]
    exact BitVec.extractLsb'_append_eq_right.symm
  have hhigh : m.memory (m.pc.toNat + 2) =
      (m.peekWord (m.pc + 2).toNat).extractLsb' 8 8 := by
    rw [hsecond]
    exact BitVec.extractLsb'_append_eq_left.symm
  obtain ⟨op, sel, cl, hop, hillegal, hselect, hrun⟩ :=
    bitSelection_eq hhigh hlow hlegal
  obtain ⟨val, mA, mC, hasm, hc, halike⟩ := readAlike hmask rfl hport
  -- The operand is no part of the second opcode.
  have hfirst : mC.memory (m.pc.toNat + 2) = m.memory (m.pc.toNat + 2) := by
    rw [← halike.memory]
    apply halike.other
    by_cases heq : m.pc.toNat + 2 = addr.toNat
    · right
      rw [← heq]
      exact hdiv
    · exact Or.inl heq
  have hlast : mC.memory (m.pc.toNat + 3) = m.memory (m.pc.toNat + 3) := by
    rw [← halike.memory]
    exact halike.other _ (Or.inl (Ne.symm hother))
  have hpc : mC.pc = m.pc + 2 := halike.c.pc
  have hmemtype : mC.memtype = m.memtype := halike.c.memtype
  have hfetch : getOpcode mC =
      (.ok (m.peekWord (m.pc + 2).toNat), mC.fetched) := by
    have hword : mC.peekWord mC.pc.toNat = m.peekWord (m.pc + 2).toNat := by
      rw [hsecond, hpc, hnext, ← hfirst, ← hlast]
      rfl
    rw [← hword]
    apply getOpcode_at
    · rw [hpc]
      exact even_add_two heven
    · rw [hpc, Machine.wordTrap, hmemtype]
      exact hbreak
    · rw [hpc, hnext, Machine.isDiv, hmemtype]
      exact hdiv
  have hresult : op.run mC.reg val mC.ccr =
      (Asm.bitResult sel cl val, mC.ccr) := by
    have hreg : mC.reg = m.reg := halike.c.reg
    have hccr : mC.ccr = m.ccr := halike.c.ccr
    rw [hreg, hccr]
    exact hrun val
  have hsafe : mC.marked 0x2c addr.toNat = false := by
    rw [Machine.marked, hmemtype]
    exact hmask
  have hquietA : mA.QuietPort addr := by
    intro port hofAddr hspecial
    rw [halike.arrivals.1]
    exact hquiet port hofAddr hspecial
  have hquietC : mC.QuietPort addr := by
    intro port hofAddr hspecial
    rw [halike.arrivals.2]
    exact hquiet port hofAddr hspecial
  have hportC : mC.isDiv addr.toNat = true → 0xff88 < addr.toNat := by
    rw [Machine.isDiv, hmemtype]
    exact fun hdiv' => (hport hdiv').1
  obtain ⟨mA', hstore, hA⟩ := writeBport_stored hquietA
    (Asm.bitResult sel cl val)
  have hC := Machine.stored_setByte (m := mC.fetched.addCycles
    (mC.fetched.byteCycles addr)) (Machine.marked_mono rfl hsafe) hportC
      hquietC (Asm.bitResult sel cl val)
  rw [bitMemory_eq hc hfetch hlegal.1 hop hillegal hresult
    (Machine.marked_mono rfl hsafe), bind_ok hselect]
  dsimp only
  rw [bind_ok (by exact hasm), bind_ok hstore]
  refine ⟨_, rfl, ?_⟩
  constructor
  · exact (hA.reg.trans halike.asm.reg).trans (hC.reg.trans halike.c.reg).symm
  · have hbehind : mA'.pc = m.pc := hA.pc.trans halike.asm.pc
    refine Eq.trans ?_ hC.pc.symm
    change mA'.pc + BitVec.ofNat 16 4 = mC.pc + 2
    rw [hbehind, hpc, BitVec.add_assoc]
    rfl
  · exact (hA.ccr.trans halike.asm.ccr).trans (hC.ccr.trans halike.c.ccr).symm
  · refine hA.memory.trans (Eq.trans ?_ hC.memory.symm)
    change Function.update mA.memory _ _ = Function.update mC.memory _ _
    rw [halike.memory]
  · have hslow (other : ℕ) : mA'.slow other = m.slow other :=
      (hA.slow_eq other).trans (halike.asm.slow_eq other)
    have hslowC (other : ℕ) : mC.slow other = m.slow other := by
      rw [Machine.slow, Machine.marked, hmemtype]
      rfl
    have hcycles : mA'.cycles = m.cycles := hA.cycles.trans halike.asm.cycles
    have hbehind : mA'.pc = m.pc := hA.pc.trans halike.asm.pc
    have hcyclesC : mC.cycles = m.fetched.cycles + m.byteCycles addr :=
      halike.c.cycles
    refine Eq.trans ?_ hC.cycles.symm
    change mA'.cycles + 2 * mA'.slow addr.toNat +
      (8 + 2 * 4 * mA'.slow mA'.pc.toNat) =
        mC.fetched.cycles + mC.byteCycles addr
    rw [hslow, hslow, hcycles, hbehind, fetched_cycles, hcyclesC,
      fetched_cycles, m.byteCycles_eq, mC.byteCycles_eq, hslowC, hslowC, hpc,
      hplain.2]
    omega
  · exact (hA.dbTrap.trans halike.asm.dbTrap).trans
      (hC.dbTrap.trans halike.c.dbTrap).symm
  · exact (hA.memtype.trans halike.asm.memtype).trans
      (hC.memtype.trans halike.c.memtype).symm

theorem writes_iff (hwrite : opc.getLsbD 8 = true) :
    decide ((opc >>> 8) &&& 1 ≠ 0) = true := by
  apply decide_eq_true
  intro hzero
  have hbit : ((opc >>> 8) &&& 1).getLsbD 0 = false := by rw [hzero]; rfl
  rw [BitVec.getLsbD_and, BitVec.getLsbD_ushiftRight, Nat.add_zero, hwrite]
    at hbit
  exact absurd hbit (by decide)

theorem matches_bitAbs (heven : m.pc &&& 1 = 0)
    (hwrite : opc.getLsbD 8 = true)
    (hsafe : Asm.BitSafe m (displacement opc)) :
    Matches (Asm.bitAbs1 opc m) (Instr.bitAbs opc m.fetched) := by
  rw [Instr.bitAbs, writes_iff hwrite]
  exact matches_bitops1 heven hsafe

theorem matches_bitInd (heven : m.pc &&& 1 = 0)
    (hwrite : opc.getLsbD 8 = true) (hlegal : Asm.Legal opc 0x8f)
    (hsafe : Asm.BitSafe m (m.reg16 (rs16 opc))) :
    Matches (Asm.bitInd1 opc m) (Instr.bitInd opc m.fetched) := by
  rw [Asm.bitInd1, illOpc_bind hlegal, gets_bind, Instr.bitInd,
    illegalIf_bind hlegal.not_illegal, gets_bind,
    writes_iff hwrite]
  exact matches_bitops1 heven hsafe

end Memory

end BrickEmu
