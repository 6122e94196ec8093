import BrickEmu.AsmRegisters

/-!
# Branches, calls and returns of the core

The C code fetches the word behind a jump although it is not executed.  The
core charges for it without looking at it.
-/

namespace BrickEmu

open Program

variable {opc : Word} {m : Machine}

section Targets

theorem Machine.GoodTarget.not_bad {target : Word}
    (hgood : m.GoodTarget target) :
    ¬(target &&& 1 ≠ 0 ∨ m.isDiv target.toNat = true) := by
  rintro (hodd | hdiv)
  · exact hodd hgood.1
  · exact absurd (hgood.2.symm.trans hdiv) Bool.false_ne_true

theorem checkPc_bind {α : Type} {f : Unit → Exec α}
    (hgood : m.GoodTarget m.pc) : (checkPc >>= f) m = f () m := by
  apply leaveIf_bind_neg
  exact decide_eq_false hgood.not_bad

theorem checkPc_good (hgood : m.GoodTarget m.pc) :
    checkPc m = (.ok (), m) :=
  if_neg (by simpa using hgood.not_bad)

theorem badTarget_eq_false {target : Word} (hgood : m.GoodTarget target) :
    Asm.badTarget target m = false :=
  decide_eq_false hgood.not_bad

/-- The fetch of a word that is not used. -/
theorem prefetch_bind {α : Type} {f : Word → Exec α} (heven : m.pc &&& 1 = 0)
    (hplain : m.isDiv m.pc.toNat = false) :
    (prefetch >>= f) m =
      f (m.peekWord m.pc.toNat) (m.addCycles (m.wordCycles m.pc)) :=
  bind_ok (prefetch_plain heven hplain) f

theorem nextWord_bind {α : Type} {f : Word → Exec α} (heven : m.pc &&& 1 = 0)
    (hplain : m.isDiv m.pc.toNat = false) :
    (nextWord >>= f) m = f (m.peekWord m.pc.toNat) m.fetched :=
  bind_ok (nextWord_plain heven hplain) f

/-- The second word lies behind the first. -/
theorem toNat_add_two {addr : Word} (heven : addr &&& 1 = 0)
    (hlast : addr ≠ 0xfffe) : (addr + 2).toNat = addr.toNat + 2 := by
  rw [even_iff] at heven
  have hlt := addr.isLt
  have hne : addr.toNat ≠ 0xfffe := fun heq =>
    hlast (BitVec.eq_of_toNat_eq heq)
  have hsum : (addr + 2).toNat = (addr.toNat + 2) % 65536 := rfl
  omega

theorem fetched_wordCycles (m : Machine) (addr : Word) :
    m.fetched.wordCycles addr = 2 + 4 * m.slow addr.toNat :=
  m.wordCycles_eq addr

theorem fetched_cycles (m : Machine) :
    m.fetched.cycles = m.cycles + (2 + 4 * m.slow m.pc.toNat) := by
  rw [← m.wordCycles_eq]
  rfl

end Targets

section Branches

theorem signExtend_setWidth (b : Byte) :
    (b.signExtend 32).setWidth 16 = b.signExtend 16 := by
  apply BitVec.eq_of_getLsbD_eq
  intro i hi
  rw [BitVec.getLsbD_setWidth, BitVec.getLsbD_signExtend,
    BitVec.getLsbD_signExtend]
  have hwide : i < 32 := by omega
  simp [hi, hwide]

theorem branchBase_setWidth (opc pc : Word) :
    (Asm.branchBase opc pc).setWidth 16 = pc + displacement opc := by
  rw [Asm.branchBase, BitVec.setWidth_add _ _ (by decide),
    signExtend_setWidth, BitVec.setWidth_setWidth_of_le _ (by decide),
    BitVec.setWidth_eq]
  rfl

/-- An even target has an even displacement. -/
theorem legal_of_even_target (heven : m.pc &&& 1 = 0)
    (htarget : (m.pc + 2 + displacement opc) &&& 1 = 0) :
    Asm.Legal opc 0x01 := by
  have hparity {w : ℕ} (x : BitVec w) :
      x.getLsbD 0 = decide (x.toNat % 2 = 1) := by
    rw [BitVec.getLsbD, Nat.testBit_zero]
  have hsign : (displacement opc).getLsbD 0 = (opcval opc).getLsbD 0 := by
    rw [displacement, BitVec.getLsbD_signExtend]
    simp
  rw [hparity, hparity, decide_eq_decide] at hsign
  have hmask : (0x01 : Byte) = BitVec.twoPow 8 0 := rfl
  rw [Asm.Legal, and_mask _ 0 hmask, hparity]
  rw [even_iff, BitVec.toNat_add, BitVec.toNat_add] at htarget
  rw [even_iff] at heven
  have htwo : (2 : Word).toNat = 2 := rfl
  have hopcode : (opcval opc).toNat % 2 = 0 := by omega
  simp [hopcode]

theorem branch_eq {taken : Byte → Bool} (heven : m.pc &&& 1 = 0)
    (hplain : m.isDiv (m.pc + 2).toNat = false)
    (hgood : m.GoodTarget
      (m.pc + 2 + if taken m.ccr then displacement opc else 0)) :
    Instr.branch opc taken m.fetched =
      (.ok (), (m.fetched.addCycles (m.fetched.wordCycles (m.pc + 2))).setPc
        (m.pc + 2 + if taken m.ccr then displacement opc else 0)) := by
  rw [Instr.branch, prefetch_bind (even_add_two heven) hplain, change_bind]
  by_cases htaken : taken m.ccr = true
  · rw [if_pos htaken] at hgood ⊢
    rw [if_pos (by exact htaken)]
    exact checkPc_good hgood
  · have hstay : m.pc + 2 + 0 = m.pc + 2 := BitVec.add_zero _
    rw [if_neg htaken, hstay] at hgood ⊢
    rw [if_neg (by exact htaken)]
    exact checkPc_good hgood

theorem matches_branch {taken : Byte → Bool} (heven : m.pc &&& 1 = 0)
    (hsafe : Asm.BranchSafe opc m taken) :
    Matches (Asm.branch opc taken m) (Instr.branch opc taken m.fetched) := by
  obtain ⟨hplain, hgood, hslow⟩ := hsafe
  rw [branch_eq heven hplain hgood, Asm.branch, gets_bind]
  by_cases htaken : taken m.ccr = true
  · rw [if_pos htaken] at hgood hslow ⊢
    rw [if_pos htaken, Asm.doBra,
      illOpc_bind (legal_of_even_target heven hgood.1)]
    refine ⟨_, rfl, ?_⟩
    constructor
    · rfl
    · change (Asm.branchBase opc m.pc).setWidth 16 + 2 = _
      rw [branchBase_setWidth, BitVec.add_assoc,
        BitVec.add_comm (displacement opc), ← BitVec.add_assoc]
      rfl
    · rfl
    · rfl
    · change m.cycles + 4 * m.slow m.pc.toNat + 4 +
        4 * m.slow (Asm.branchBase opc m.pc).toNat =
          m.fetched.cycles + m.fetched.wordCycles (m.pc + 2)
      rw [fetched_cycles, fetched_wordCycles, hslow]
      omega
    · rfl
    · rfl
  · rw [if_neg htaken] at hgood hslow ⊢
    rw [if_neg htaken]
    refine ⟨_, rfl, ?_⟩
    constructor
    · rfl
    · exact (BitVec.add_zero _).symm
    · rfl
    · rfl
    · change m.cycles + 4 * m.slow m.pc.toNat +
        (4 + 2 * 2 * m.slow m.pc.toNat) =
          m.fetched.cycles + m.fetched.wordCycles (m.pc + 2)
      rw [fetched_cycles, fetched_wordCycles, hslow]
      omega
    · rfl
    · rfl

theorem matches_bra (heven : m.pc &&& 1 = 0)
    (hsafe : Asm.BranchSafe opc m fun _ => true) :
    Matches (Asm.doBra opc m) (Instr.bra opc m.fetched) :=
  matches_branch heven hsafe

end Branches

section Jumps

theorem jmpCommon_good {target : Word} (hgood : m.GoodTarget target) :
    Asm.jmpCommon target m =
      (.ok (), ((m.addCycles (8 * m.slow m.pc.toNat)).setPc target).addCycles
        4) := by
  rw [Asm.jmpCommon, unalignedIf_bind (badTarget_eq_false hgood)]
  rfl

theorem matches_jmpRI (heven : m.pc &&& 1 = 0) (hlegal : Asm.Legal opc 0x8f)
    (hplain : m.PlainPrefetch) (hgood : m.GoodTarget (m.reg16 (rs16 opc))) :
    Matches (Asm.jmpRI opc m) (Instr.jmpRI opc m.fetched) := by
  obtain ⟨hdiv, hslow⟩ := hplain
  have hasm : Asm.jmpRI opc m = Asm.jmpCommon (m.reg16 (rs16 opc)) m :=
    illOpc_bind hlegal
  have hc : Instr.jmpRI opc m.fetched =
      (.ok (), (m.fetched.addCycles (m.fetched.wordCycles (m.pc + 2))).setPc
        (m.reg16 (rs16 opc))) := by
    rw [Instr.jmpRI, illegalIf_bind hlegal.not_illegal,
      prefetch_bind (even_add_two heven) hdiv, change_bind]
    exact checkPc_good hgood
  rw [hasm, jmpCommon_good hgood, hc]
  refine ⟨_, rfl, rfl, rfl, rfl, rfl, ?_, rfl, rfl⟩
  change m.cycles + 8 * m.slow m.pc.toNat + 4 =
    m.fetched.cycles + m.fetched.wordCycles (m.pc + 2)
  rw [fetched_cycles, fetched_wordCycles, hslow]
  omega

/-- The second word is handed back where it is no plain memory. -/
theorem matches_getWOpc {f : Word → Asm Unit}
    {c : Except Exit Unit × Machine} (heven : m.pc &&& 1 = 0)
    (hplain : m.PlainOperand)
    (h : m.isDiv (m.pc + 2).toNat = false →
      Matches (f (m.peekWord (m.pc + 2).toNat) m) c) :
    Matches ((Asm.getWOpc >>= f) m) c := by
  rw [toNat_add_two heven hplain.1] at h
  exact matches_guarded h

/-- A mask of all bits leaves only the zero opcode. -/
theorem opcval_eq_zero (hlegal : Asm.Legal opc 0xff) : opcval opc = 0 := by
  have hall : opcval opc &&& 0xff = opcval opc := BitVec.and_allOnes
  exact hall.symm.trans hlegal

theorem matches_jmpA16 (heven : m.pc &&& 1 = 0) (hlegal : Asm.Legal opc 0xff)
    (hplain : m.PlainOperand)
    (hgood : m.GoodTarget (m.peekWord (m.pc + 2).toNat)) :
    Matches (Asm.jmpA16 opc m) (Instr.jmpA16 opc m.fetched) := by
  rw [Asm.jmpA16, illOpc_bind hlegal]
  apply matches_getWOpc heven hplain
  intro hdiv
  have hzero := opcval_eq_zero hlegal
  have hc : Instr.jmpA16 opc m.fetched =
      (.ok (), ((m.fetched.addCycles 2).addCycles
        (m.fetched.wordCycles (m.pc + 2))).setPc
          (m.peekWord (m.pc + 2).toNat)) := by
    rw [Instr.jmpA16, illegalIf_bind (by simp [hzero]), spend, change_bind,
      prefetch_bind (m := m.fetched.addCycles 2) (even_add_two heven) hdiv,
      change_bind]
    exact checkPc_good hgood
  have hasm : (Asm.spend 2 >>= fun _ =>
      Asm.jmpCommon (m.peekWord (m.pc + 2).toNat)) m =
        Asm.jmpCommon (m.peekWord (m.pc + 2).toNat) (m.addCycles 2) := rfl
  rw [hasm, jmpCommon_good (m := m.addCycles 2) hgood, hc]
  refine ⟨_, rfl, rfl, rfl, rfl, rfl, ?_, rfl, rfl⟩
  change m.cycles + 2 + 8 * m.slow m.pc.toNat + 4 =
    m.fetched.cycles + 2 + m.fetched.wordCycles (m.pc + 2)
  rw [fetched_cycles, fetched_wordCycles, hplain.2]
  omega

end Jumps

section Calls

/-- The machine after a call: `m` is the machine in front of the opcode, the
length and the other cycles are those of the instruction. -/
def Machine.called (target sp back : Word) (cycles : ℕ) (m : Machine) :
    Machine :=
  (((Asm.pokeWord sp.toNat back (m.addCycles cycles)).setPc target).beginCall
    sp).setReg16 7 sp

theorem call_eq {target : Exec Word} {dest : Word}
    (hplain : m.wordMarked 0xa4 (m.reg16 7 - 2).toNat = false)
    (htarget : ∀ m', m'.reg = m.reg → m'.pc = m.pc →
      target m' = (.ok dest, m'))
    (hgood : m.GoodTarget dest) :
    call target m = (.ok (), m.called dest (m.reg16 7 - 2) m.pc
      (m.wordCycles (m.reg16 7 - 2))) := by
  have hdest := htarget (Asm.pokeWord (m.reg16 7 - 2).toNat m.pc
    (m.addCycles (m.wordCycles (m.reg16 7 - 2)))) rfl rfl
  rw [call, gets_bind, gets_bind, bind_ok (writeWord_plain hplain m.pc),
    bind_ok hdest, change_bind, checkPc_bind (by exact hgood), change_bind]
  rfl

/-- The stack pointer does not fall below the memory. -/
theorem toNat_sub_two {sp : Word} (h : 2 ≤ sp.toNat) :
    ((sp.setWidth 32 : BitVec 32) - 2).toNat = (sp - 2).toNat ∧
      ((sp.setWidth 32 : BitVec 32) - 2).setWidth 16 = sp - 2 := by
  have hlt := sp.isLt
  have htwo : (2 : BitVec 32).toNat = 2 := rfl
  have htwo' : (2 : Word).toNat = 2 := rfl
  have hwide : ((sp.setWidth 32 : BitVec 32) - 2).toNat = (sp - 2).toNat := by
    rw [BitVec.toNat_sub, BitVec.toNat_sub, BitVec.toNat_setWidth, htwo, htwo']
    omega
  refine ⟨hwide, BitVec.eq_of_toNat_eq ?_⟩
  rw [BitVec.toNat_setWidth, hwide, Nat.mod_eq_of_lt (sp - 2).isLt]

/-- The last bit decides whether an address is even. -/
theorem even_setWidth {addr : BitVec 32} (heven : addr &&& 1 = 0) :
    addr.setWidth 16 &&& (1 : Word) = 0 := by
  have hmod : (addr &&& 1).toNat = addr.toNat % 2 := by
    rw [BitVec.toNat_and]
    exact Nat.and_one_is_mod _
  rw [heven] at hmod
  rw [even_iff, BitVec.toNat_setWidth]
  have hzero : (0 : BitVec 32).toNat = 0 := rfl
  omega

theorem matches_jsrCommon {eax edx : BitVec 32} {c : Except Exit Unit × Machine}
    (hroom : 2 ≤ (m.reg16 7).toNat)
    (h : eax.setWidth 16 &&& (1 : Word) = 0 →
      m.wordMarked 0xa4 (m.reg16 7 - 2).toNat = false →
      ∃ m', c = (.ok (), m') ∧ SameCpu (m.called (eax.setWidth 16)
        (m.reg16 7 - 2) (edx.setWidth 16) (6 + 8 * m.slow edx.toNat +
          4 * m.slow (m.reg16 7 - 2).toNat)) m') :
    Matches (Asm.jsrCommon eax edx m) c := by
  obtain ⟨hsp, hsp'⟩ := toNat_sub_two hroom
  rw [Asm.jsrCommon]
  apply matches_cleanUpIf
  intro hodd
  rw [gets_bind]
  apply matches_cleanUpIf
  intro hplain
  rw [hsp] at hplain
  obtain ⟨m', rfl, hsame⟩ := h
    (even_setWidth (by simpa using hodd)) hplain
  simp only [Machine.called] at hsame
  rw [← hsp, ← hsp'] at hsame
  refine ⟨m', rfl, hsame.reg, hsame.pc, hsame.ccr, hsame.memory, ?_,
    hsame.dbTrap, hsame.memtype⟩
  refine Eq.trans ?_ hsame.cycles
  change m.cycles + 6 + 8 * m.slow edx.toNat + 4 * m.slow _ =
    m.cycles + (6 + 8 * m.slow edx.toNat + 4 * m.slow _)
  omega

/-- Both cores have entered the call. -/
theorem sameCpu_called {c : Machine} {target sp back : Word} {n n' : ℕ}
    (hreg : m.reg = c.reg) (hccr : m.ccr = c.ccr)
    (hmemory : m.memory = c.memory) (hmemtype : m.memtype = c.memtype)
    (htrap : m.dbTrap = c.dbTrap) (hcycles : m.cycles + n = c.cycles + n') :
    SameCpu (m.called target sp back n) (c.called target sp back n') where
  reg := congrArg (fun reg => (Machine.setReg16 { m with reg := reg } 7 sp).reg)
    hreg
  pc := rfl
  ccr := hccr
  memory := congrArg (fun memory =>
    (Asm.pokeWord sp.toNat back { m with memory := memory }).memory) hmemory
  cycles := hcycles
  dbTrap := htrap
  memtype := hmemtype

theorem toNat_return (pc : Word) (length : ℕ) (hlength : length ≤ 4) :
    (pc.setWidth 32 + BitVec.ofNat 32 length).toNat = pc.toNat + length ∧
      (pc.setWidth 32 + BitVec.ofNat 32 length).setWidth 16 =
        pc + BitVec.ofNat 16 length := by
  have hlt := pc.isLt
  constructor
  · rw [BitVec.toNat_add, BitVec.toNat_setWidth, BitVec.toNat_ofNat]
    omega
  · rw [BitVec.setWidth_add _ _ (by decide),
      BitVec.setWidth_setWidth_of_le _ (by decide), BitVec.setWidth_eq]
    congr 1
    apply BitVec.eq_of_toNat_eq
    rw [BitVec.toNat_setWidth, BitVec.toNat_ofNat, BitVec.toNat_ofNat]
    omega

/-- The short calls push the address behind the opcode. -/
theorem matches_shortCall {eax : BitVec 32} {target : Exec Word} {dest : Word}
    (heven : m.pc &&& 1 = 0) (hplain : m.PlainPrefetch)
    (hsafe : Asm.CallSafe m dest 2) (hdest : eax.setWidth 16 = dest)
    (htarget : ∀ m', m'.reg = m.reg → m'.pc = m.pc + 2 →
      target m' = (.ok dest, m')) :
    Matches (Asm.jsrCommon eax (m.pc.setWidth 32 + 2) m)
      ((prefetch >>= fun _ => call target) m.fetched) := by
  obtain ⟨hdiv, hslow⟩ := hplain
  obtain ⟨hgood, hroom, hback⟩ := hsafe
  obtain ⟨hedx, hedx'⟩ := toNat_return m.pc 2 (by omega)
  subst hdest
  apply matches_jsrCommon hroom
  intro hodd hstack
  rw [prefetch_bind (even_add_two heven) hdiv]
  refine ⟨_, call_eq (by exact hstack) htarget ⟨hodd, hgood⟩, ?_⟩
  have hpc : (m.pc.setWidth 32 + 2 : BitVec 32).setWidth 16 = m.pc + 2 := hedx'
  have hnat : (m.pc.setWidth 32 + 2 : BitVec 32).toNat = m.pc.toNat + 2 := hedx
  have hcycles : m.cycles + (6 + 8 * m.slow (m.pc.toNat + 2) +
      4 * m.slow (m.reg16 7 - 2).toNat) = m.fetched.cycles +
        m.fetched.wordCycles (m.pc + 2) + m.wordCycles (m.reg16 7 - 2) := by
    rw [fetched_cycles, fetched_wordCycles, m.wordCycles_eq, hslow, hback]
    omega
  rw [hpc, hnat]
  exact sameCpu_called (c := m.fetched.addCycles
    (m.fetched.wordCycles (m.pc + 2))) rfl rfl rfl rfl rfl hcycles

theorem matches_bSr (heven : m.pc &&& 1 = 0) (hplain : m.PlainPrefetch)
    (hsafe : Asm.CallSafe m (m.pc + 2 + displacement opc) 2) :
    Matches (Asm.bSr opc m) (Instr.bSr opc m.fetched) := by
  rw [Asm.bSr, gets_bind, Instr.bSr]
  apply matches_shortCall heven hplain hsafe
  · obtain ⟨-, hedx⟩ := toNat_return m.pc 2 (by omega)
    have hpc : (m.pc.setWidth 32 + 2 : BitVec 32).setWidth 16 = m.pc + 2 := hedx
    rw [BitVec.setWidth_add _ _ (by decide), hpc, signExtend_setWidth,
      BitVec.add_comm]
    rfl
  · intro m' hreg hpc
    change (Except.ok (m'.pc + displacement opc), m') = _
    rw [hpc]

theorem matches_jsrRI (heven : m.pc &&& 1 = 0) (hlegal : Asm.Legal opc 0x8f)
    (hplain : m.PlainPrefetch)
    (hsafe : Asm.CallSafe m (m.reg16 (rs16 opc)) 2) :
    Matches (Asm.jsrRI opc m) (Instr.jsrRI opc m.fetched) := by
  rw [Asm.jsrRI, illOpc_bind hlegal, gets_bind, gets_bind, Instr.jsrRI,
    illegalIf_bind hlegal.not_illegal]
  apply matches_shortCall heven hplain hsafe
  · rw [BitVec.setWidth_setWidth_of_le _ (by decide), BitVec.setWidth_eq]
  · intro m' hreg hpc
    change (Except.ok (m'.reg16 (rs16 opc)), m') = _
    rw [Machine.reg16, hreg]
    rfl

theorem matches_jsrA16 (heven : m.pc &&& 1 = 0) (hlegal : Asm.Legal opc 0xff)
    (hplain : m.PlainOperand)
    (hsafe : Asm.CallSafe m (m.peekWord (m.pc + 2).toNat) 4) :
    Matches (Asm.jsrA16 opc m) (Instr.jsrA16 opc m.fetched) := by
  obtain ⟨hgood, hroom, hback⟩ := hsafe
  obtain ⟨hedx, hedx'⟩ := toNat_return m.pc 4 le_rfl
  rw [Asm.jsrA16, illOpc_bind hlegal]
  apply matches_getWOpc heven hplain
  intro hdiv
  have hdest : ((m.peekWord (m.pc + 2).toNat).setWidth 32).setWidth 16 =
      m.peekWord (m.pc + 2).toNat := by
    rw [BitVec.setWidth_setWidth_of_le _ (by decide), BitVec.setWidth_eq]
  rw [Asm.spend, change_bind, gets_bind]
  apply matches_jsrCommon (m := m.addCycles 2) hroom
  intro hodd hstack
  rw [hdest] at hodd ⊢
  rw [Instr.jsrA16, illegalIf_bind (by simp [opcval_eq_zero hlegal]),
    nextWord_bind (even_add_two heven) hdiv, spend, change_bind]
  refine ⟨_, call_eq (by exact hstack) (fun _ _ _ => rfl)
    ⟨hodd, hgood⟩, ?_⟩
  have hpc : (m.pc.setWidth 32 + 4 : BitVec 32).setWidth 16 =
      m.pc + 2 + 2 := by
    rw [BitVec.add_assoc]
    exact hedx'
  have hnat : (m.pc.setWidth 32 + 4 : BitVec 32).toNat = m.pc.toNat + 4 := hedx
  have hcycles : m.cycles + 2 + (6 + 8 * m.slow (m.pc.toNat + 4) +
      4 * m.slow (m.reg16 7 - 2).toNat) = m.fetched.cycles +
        m.fetched.wordCycles (m.pc + 2) + 2 + m.wordCycles (m.reg16 7 - 2) := by
    rw [fetched_cycles, fetched_wordCycles, m.wordCycles_eq, hback, hplain.2]
    omega
  have hsame : (m.addCycles 2).pc = m.pc := rfl
  rw [hsame, hpc, hnat]
  exact sameCpu_called (m := m.addCycles 2)
    (c := m.fetched.fetched.addCycles 2) rfl rfl rfl rfl rfl hcycles

end Calls

section Returns

theorem leave_eq {addr sp : Word} (heven : addr &&& 1 = 0)
    (hplain : m.wordMarked 0x88 addr.toNat = false)
    (hgood : m.GoodTarget (m.peekWord addr.toNat)) :
    (readWord addr >>= fun pc => change (Machine.setPc pc) >>= fun _ =>
      checkPc >>= fun _ => change fun m => m.setReg16 7 sp) m =
        (.ok (), ((m.addCycles (m.wordCycles addr)).setPc
          (m.peekWord addr.toNat)).setReg16 7 sp) := by
  rw [bind_ok (readWord_plain heven hplain), change_bind,
    checkPc_bind (by exact hgood)]
  rfl

theorem matches_rtS (heven : m.pc &&& 1 = 0) (hsafe : Asm.ReturnSafe m false) :
    Matches (Asm.return_ false m) (Instr.rtS m.fetched) := by
  obtain ⟨hdiv, hstack, hgood, hslow⟩ := hsafe
  simp only [Bool.false_eq_true, if_false] at hgood hslow
  rw [Asm.return_, gets_bind]
  apply matches_cleanUpIf
  intro hplain
  rw [Bool.false_and, Bool.or_false] at hplain
  rw [change_bind, change_bind, gets_bind,
    unalignedIf_bind (badTarget_eq_false (by exact hgood))]
  rw [Instr.rtS, prefetch_bind (even_add_two heven) hdiv, spend, change_bind,
    gets_bind, change_bind]
  refine ⟨_, leave_eq hstack hplain hgood, rfl, rfl, rfl, rfl, ?_, rfl, rfl⟩
  change m.cycles + 8 * m.slow m.pc.toNat + 4 * m.slow (m.reg16 7).toNat + 8 =
    m.fetched.cycles + m.fetched.wordCycles (m.pc + 2) + 2 +
      m.wordCycles (m.reg16 7)
  rw [fetched_cycles, fetched_wordCycles, m.wordCycles_eq, hslow]
  omega

/-- The machine without the frame, and with the flags that the return has
taken from the stack. -/
def Machine.unframed (m : Machine) : Machine :=
  ((m.fetched.addCycles (m.fetched.wordCycles (m.pc + 2))).addCycles
    2).endFrame (m.reg16 7 + 2)

def Machine.unflagged (m : Machine) : Machine :=
  (m.unframed.addCycles (m.unframed.wordCycles (m.reg16 7))).setCcr
    ((m.unframed.peekWord (m.reg16 7).toNat).extractLsb' 8 8)

theorem rtE_eq (heven : m.pc &&& 1 = 0)
    (hdiv : m.isDiv (m.pc + 2).toNat = false)
    (hstack : m.reg16 7 &&& 1 = 0)
    (hflags : m.wordMarked 0x88 (m.reg16 7).toNat = false)
    (htarget : m.wordMarked 0x88 (m.reg16 7 + 2).toNat = false)
    (hgood : m.GoodTarget (m.peekWord (m.reg16 7 + 2).toNat)) :
    Instr.rtE m.fetched =
      (.ok (), ((m.unflagged.addCycles
        (m.unflagged.wordCycles (m.reg16 7 + 2))).setPc
          (m.unflagged.peekWord (m.reg16 7 + 2).toNat)).setReg16 7
            (m.reg16 7 + 4)) := by
  rw [Instr.rtE, prefetch_bind (even_add_two heven) hdiv, spend, change_bind,
    gets_bind, change_bind]
  refine (bind_ok (readWord_plain (m := m.unframed) hstack hflags) _).trans ?_
  rw [change_bind]
  exact leave_eq (m := m.unflagged) (even_add_two hstack) htarget hgood

theorem matches_rtE (heven : m.pc &&& 1 = 0) (hsafe : Asm.ReturnSafe m true) :
    Matches (Asm.return_ true m) (Instr.rtE m.fetched) := by
  obtain ⟨hdiv, hstack, hgood, hsp, hslow⟩ := hsafe
  simp only [if_true] at hgood hslow
  have hnext := toNat_add_two hstack hsp
  rw [← hnext] at hgood
  rw [Asm.return_, gets_bind]
  simp only [if_true, Bool.true_and]
  apply matches_cleanUpIf
  intro hplain
  obtain ⟨hflags, htarget⟩ := Bool.or_eq_false_iff.mp hplain
  rw [← hnext] at htarget ⊢
  rw [change_bind, change_bind, gets_bind,
    unalignedIf_bind (badTarget_eq_false (by exact hgood)),
    rtE_eq heven hdiv hstack hflags htarget hgood]
  have hccr : (m.peekWord (m.reg16 7).toNat).extractLsb' 8 8 =
      m.memory (m.reg16 7).toNat := BitVec.extractLsb'_append_eq_left
  refine ⟨_, rfl, ?_⟩
  constructor
  · rfl
  · rfl
  · exact hccr.symm
  · rfl
  · change m.cycles + 8 * m.slow m.pc.toNat + 8 * m.slow (m.reg16 7).toNat +
      10 = m.fetched.cycles + m.fetched.wordCycles (m.pc + 2) + 2 +
        m.wordCycles (m.reg16 7) + m.wordCycles (m.reg16 7 + 2)
    rw [fetched_cycles, fetched_wordCycles, m.wordCycles_eq, m.wordCycles_eq]
    omega
  · rfl
  · rfl

end Returns

section Rest

theorem matches_nop (heven : m.pc &&& 1 = 0) (hlegal : Asm.Legal opc 0xff)
    (hdiv : m.isDiv (m.pc + 2).toNat = false) :
    Matches (Asm.nop opc m) (Instr.nop opc m.fetched) := by
  have hzero := opcval_eq_zero hlegal
  have hc : Instr.nop opc m.fetched = (.ok (), m.fetched) := by
    have hget : m.fetched.getWord (m.pc + 2) =
        (m.peekWord (m.pc + 2).toNat, m.fetched) :=
      if_pos ⟨even_add_two heven, by simpa using by exact hdiv⟩
    rw [Instr.nop, if_pos hzero, act_bind]
    change (Except.ok (), (m.fetched.getWord (m.pc + 2)).2) = _
    rw [hget]
  rw [Asm.nop, illOpc_bind hlegal, hc]
  apply matches_cleanUpIf
  intro _
  refine ⟨_, rfl, ?_⟩
  rw [← epilogue_eq_fetched]
  exact ⟨rfl, rfl, rfl, rfl, rfl, rfl, rfl⟩

end Rest

end BrickEmu
