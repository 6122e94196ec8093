import BrickEmu.AsmJumps

/-!
# Moves of the core

The core charges an instruction for its opcode at the end, the C code at the
fetch of each word.  In between the C code works on the machine with another
program counter and another cycle count.
-/

namespace BrickEmu

open Program

variable {opc : Word} {m : Machine} {clock : Clock} {length : ℕ}

section Behind

/-- The machine behind the words of an instruction. -/
def Machine.behind (length : ℕ) (clock : Clock) (m : Machine) : Machine :=
  { m with pc := m.pc + BitVec.ofNat 16 length, clock := clock }

theorem fetched_fetched (m : Machine) :
    m.fetched.fetched = m.behind 4 m.fetched.fetched.clock := by
  have hpc : m.pc + 2 + 2 = m.pc + BitVec.ofNat 16 4 := BitVec.add_assoc _ _ _
  rw [Machine.behind, ← hpc]
  rfl

theorem fetched_fetched_cycles (hplain : m.PlainOperand) :
    m.fetched.fetched.cycles = m.cycles + (4 + 8 * m.slow m.pc.toNat) := by
  have hsecond : m.fetched.fetched.cycles =
      m.fetched.cycles + (2 + 4 * m.slow (m.pc + 2).toNat) :=
    fetched_cycles m.fetched
  rw [hsecond, fetched_cycles, hplain.2]
  omega

end Behind

section Bytes

variable {ax : Word}

/-- What the C code does after the address is known. -/
theorem storeByte_plain {nr : BitVec 4}
    (h : m.marked 0xa4 ax.toNat = false) :
    Instr.storeByte ax nr m =
      (.ok (), ((m.addCycles (m.byteCycles ax)).poke ax.toNat
        (m.reg nr)).setCcr (setNZV (m.reg nr) m.ccr)) := by
  rw [Instr.storeByte, gets_bind, bind_ok (writeByte_plain h (m.reg nr))]
  rfl

theorem loadByte_plain {nr : BitVec 4}
    (h : m.marked 0x88 ax.toNat = false) :
    Instr.loadByte ax nr m =
      (.ok (), ((m.addCycles (m.byteCycles ax)).setReg nr
        (m.memory ax.toNat)).setCcr (setNZV (m.memory ax.toNat) m.ccr)) := by
  rw [Instr.loadByte, bind_ok (readByte_plain h)]
  rfl

theorem isStore_iff : opcval opc &&& 0x80 ≠ 0 ↔ Instr.isStore opc = true :=
  decide_eq_true_iff.symm

theorem matches_movBCore
    (hcycles : clock.cycles = m.cycles + (length + 2 * length *
      m.slow m.pc.toNat)) :
    Matches (Asm.movBCore opc false length ax m)
      (Instr.moveByte opc ax (m.behind length clock)) := by
  rw [Asm.movBCore, Instr.moveByte]
  simp only [isStore_iff]
  by_cases hstore : Instr.isStore opc = true
  · rw [if_pos hstore, if_pos hstore, gets_bind]
    apply matches_guarded
    intro hplain
    refine ⟨_, storeByte_plain (by exact hplain), ?_⟩
    constructor
    · rfl
    · rfl
    · exact asmSetNZ_eq le_rfl _ _
    · rfl
    · change m.cycles + 1 * m.slow ax.toNat + (length + 2 + 2 * length *
        m.slow m.pc.toNat) = clock.cycles + m.byteCycles ax
      rw [hcycles, m.byteCycles_eq]
      omega
    · rfl
    · rfl
  · rw [if_neg hstore, if_neg hstore]
    apply matches_guarded
    intro hplain
    refine ⟨_, loadByte_plain (by exact hplain), ?_⟩
    constructor
    · rfl
    · rfl
    · exact asmSetNZ_eq le_rfl _ _
    · rfl
    · change m.cycles + 1 * m.slow ax.toNat + (length + 2 + 2 * length *
        m.slow m.pc.toNat) = clock.cycles + m.byteCycles ax
      rw [hcycles, m.byteCycles_eq]
      omega
    · rfl
    · rfl

theorem fetched_charged (m : Machine) :
    m.fetched.clock.cycles = m.cycles + (2 + 2 * 2 * m.slow m.pc.toNat) :=
  fetched_cycles m

theorem fetched_fetched_charged (hplain : m.PlainOperand) :
    m.fetched.fetched.clock.cycles =
      m.cycles + (4 + 2 * 4 * m.slow m.pc.toNat) :=
  fetched_fetched_cycles hplain

theorem matches_movBRI :
    Matches (Asm.movBRI opc m) (Instr.movBRI opc m.fetched) :=
  matches_movBCore (fetched_charged m)

theorem matches_movBRID (heven : m.pc &&& 1 = 0) (hplain : m.PlainOperand) :
    Matches (Asm.movBRID opc m) (Instr.movBRID opc m.fetched) := by
  rw [Asm.movBRID]
  apply matches_getWOpc heven hplain
  intro hdiv
  rw [gets_bind, Instr.movBRID, nextWord_bind (even_add_two heven) hdiv,
    fetched_fetched]
  exact matches_movBCore (fetched_fetched_charged hplain)

theorem matches_movBA16 (heven : m.pc &&& 1 = 0) (hlegal : Asm.Legal opc 0x70)
    (hplain : m.PlainOperand) :
    Matches (Asm.movBA16 opc m) (Instr.movBA16 opc m.fetched) := by
  rw [Asm.movBA16, illOpc_bind hlegal]
  apply matches_getWOpc heven hplain
  intro hdiv
  rw [Instr.movBA16, illegalIf_bind hlegal.not_illegal,
    nextWord_bind (even_add_two heven) hdiv, fetched_fetched]
  exact matches_movBCore (fetched_fetched_charged hplain)

/-- The register that is loaded is no half of the address register. -/
theorem setReg_setReg16 {nr : BitVec 4} {nr16 : BitVec 3}
    (hne : nr.setWidth 3 ≠ nr16) (val : Byte) (addr : Word) :
    (m.setReg nr val).setReg16 nr16 addr =
      (m.setReg16 nr16 addr).setReg nr val := by
  have hhalf (half : BitVec 1) : half ++ nr16 ≠ nr := by
    rintro rfl
    exact hne BitVec.setWidth_append_eq_right
  simp only [Machine.setReg16, Machine.setReg]
  rw [Function.update_comm (hhalf 1#1), Function.update_comm (hhalf 0#1)]

theorem setReg16_setReg16 {nr nr16 : BitVec 3} (hne : nr ≠ nr16)
    (val addr : Word) :
    (m.setReg16 nr val).setReg16 nr16 addr =
      (m.setReg16 nr16 addr).setReg16 nr val := by
  have hhalf (half : BitVec 1) : (half ++ nr).setWidth 3 ≠ nr16 := by
    rw [BitVec.setWidth_append_eq_right]
    exact hne
  calc
    (m.setReg16 nr val).setReg16 nr16 addr =
        ((m.setReg (0#1 ++ nr) (val.extractLsb' 8 8)).setReg16 nr16
          addr).setReg (1#1 ++ nr) (val.extractLsb' 0 8) :=
      setReg_setReg16 (hhalf 1#1) _ _
    _ = (m.setReg16 nr16 addr).setReg16 nr val := by
      rw [setReg_setReg16 (hhalf 0#1)]
      rfl

theorem matches_movBRIP
    (hsafe : Asm.LoadIncSafe opc m 1 ((rd opc).setWidth 3 = rs16 opc)) :
    Matches (Asm.movBRIP opc m) (Instr.movBRIP opc m.fetched) := by
  rw [Asm.movBRIP, gets_bind, Asm.movBCore, Instr.movBRIP, spend, change_bind]
  simp only [isStore_iff, if_true]
  by_cases hstore : Instr.isStore opc = true
  · rw [if_pos hstore, if_pos hstore, gets_bind, gets_bind, gets_bind]
    apply matches_guarded
    intro hplain
    rw [bind_ok (writeByte_plain (by exact hplain) _)]
    refine ⟨_, rfl, ?_⟩
    constructor
    · rfl
    · rfl
    · exact asmSetNZ_eq le_rfl _ _
    · rfl
    · change m.cycles + 1 * m.slow (m.reg16 (rs16 opc) - 1).toNat +
        (2 + 4 + 2 * 2 * m.slow m.pc.toNat) =
          m.fetched.cycles + 2 + m.byteCycles (m.reg16 (rs16 opc) - 1)
      rw [fetched_cycles, m.byteCycles_eq]
      omega
    · rfl
    · rfl
  · obtain ⟨hother, hslow⟩ := hsafe (by simpa using hstore)
    rw [if_neg hstore, if_neg hstore, gets_bind]
    apply matches_guarded
    intro hplain
    rw [bind_ok (readByte_plain (by exact hplain))]
    have hregs := congrArg Machine.reg (setReg_setReg16 (m := m) hother
      (m.memory (m.reg16 (rs16 opc)).toNat) (m.reg16 (rs16 opc) + 1))
    refine ⟨_, rfl, ?_⟩
    constructor
    · exact hregs
    · rfl
    · exact asmSetNZ_eq le_rfl _ _
    · rfl
    · change m.cycles + 1 * m.slow ((m.reg16 (rs16 opc)).toNat + 1) +
        (2 + 4 + 2 * 2 * m.slow m.pc.toNat) =
          m.fetched.cycles + 2 + m.byteCycles (m.reg16 (rs16 opc))
      rw [fetched_cycles, m.byteCycles_eq, hslow]
      omega
    · rfl
    · rfl

end Bytes

section Words

variable {ax : Word}

theorem storeWord_plain {nr : BitVec 3}
    (h : m.wordMarked 0xa4 ax.toNat = false) :
    Instr.storeWord ax nr m =
      (.ok (), (Asm.pokeWord ax.toNat (m.reg16 nr)
        (m.addCycles (m.wordCycles ax))).setCcr
          (setNZV (m.reg16 nr) m.ccr)) := by
  rw [Instr.storeWord, gets_bind, bind_ok (writeWord_plain h (m.reg16 nr))]
  rfl

/-- The frames are switched with the stack pointer only. -/
theorem switchFrame_of_ne {nr : BitVec 3} (hne : nr ≠ 7) (dest : Word) :
    m.switchFrame nr dest = m :=
  if_neg hne

theorem loadWord_plain {nr : BitVec 3} (hne : nr ≠ 7) (heven : ax &&& 1 = 0)
    (h : m.wordMarked 0x88 ax.toNat = false) :
    Instr.loadWord ax nr m =
      (.ok (), ((m.addCycles (m.wordCycles ax)).setReg16 nr
        (m.peekWord ax.toNat)).setCcr
          (setNZV (m.peekWord ax.toNat) m.ccr)) := by
  rw [Instr.loadWord, bind_ok (readWord_plain heven h), change_bind,
    switchFrame_of_ne hne]
  rfl

theorem matches_movWCore (hne : rd16 opc ≠ 7)
    (heven : Asm.LoadEven opc ax)
    (hcycles : clock.cycles = m.cycles + (length + 2 * length *
      m.slow m.pc.toNat)) :
    Matches (Asm.movWCore opc false length ax m)
      (Instr.moveWord opc ax (m.behind length clock)) := by
  rw [Asm.movWCore, Instr.moveWord]
  simp only [isStore_iff]
  by_cases hstore : Instr.isStore opc = true
  · rw [if_pos hstore, if_pos hstore, gets_bind]
    apply matches_guarded
    intro hplain
    refine ⟨_, storeWord_plain (by exact hplain), ?_⟩
    constructor
    · rfl
    · rfl
    · exact asmSetNZ_eq (by decide) _ _
    · rfl
    · change m.cycles + 4 * m.slow ax.toNat + (length + 2 + 2 * length *
        m.slow m.pc.toNat) = clock.cycles + m.wordCycles ax
      rw [hcycles, m.wordCycles_eq]
      omega
    · rfl
    · rfl
  · rw [if_neg hstore, if_neg hstore]
    apply matches_guarded
    intro hplain
    refine ⟨_, loadWord_plain hne (heven (by simpa using hstore))
      (by exact hplain), ?_⟩
    constructor
    · rfl
    · rfl
    · exact asmSetNZ_eq (by decide) _ _
    · rfl
    · change m.cycles + 4 * m.slow ax.toNat + (length + 2 + 2 * length *
        m.slow m.pc.toNat) = clock.cycles + m.wordCycles ax
      rw [hcycles, m.wordCycles_eq]
      omega
    · rfl
    · rfl

theorem matches_checkFrameSwitch {f : Unit → Asm Unit}
    {c : Except Exit Unit × Machine}
    (h : rd16 opc ≠ 7 → Matches (f () m) c) :
    Matches ((Asm.checkFrameSwitch opc >>= f) m) c := by
  apply matches_cleanUpIf
  intro hne
  exact h (of_decide_eq_false hne)

/-- A word for a register other than the stack pointer. -/
theorem setWord_eq (hne : rd16 opc ≠ 7) (dest : Word) :
    Instr.setWord opc dest m =
      (.ok (), (m.setCcr (setNZV dest m.ccr)).setReg16 (rd16 opc) dest) := by
  rw [Instr.setWord, Instr.setFlags, change_bind, change_bind,
    switchFrame_of_ne hne]
  rfl

theorem matches_movW (hlegal : Asm.Legal opc 0x88) :
    Matches (Asm.movW opc m) (Instr.movW opc m.fetched) := by
  rw [Asm.movW, illOpc_bind hlegal]
  apply matches_checkFrameSwitch
  intro hne
  rw [Instr.movW, illegalIf_bind hlegal.not_illegal, gets_bind]
  refine ⟨_, setWord_eq hne _, ?_⟩
  constructor
  · rfl
  · rfl
  · exact asmSetNZ_eq (by decide) _ _
  · rfl
  · exact (fetched_charged m).symm
  · rfl
  · rfl

theorem matches_movWI (heven : m.pc &&& 1 = 0) (hlegal : Asm.Legal opc 0xf8)
    (hplain : m.PlainOperand) :
    Matches (Asm.movWI opc m) (Instr.movWI opc m.fetched) := by
  rw [Asm.movWI, illOpc_bind hlegal]
  apply matches_checkFrameSwitch
  intro hne
  apply matches_getWOpc heven hplain
  intro hdiv
  rw [Instr.movWI, illegalIf_bind hlegal.not_illegal,
    nextWord_bind (even_add_two heven) hdiv, fetched_fetched]
  refine ⟨_, setWord_eq hne _, ?_⟩
  constructor
  · rfl
  · rfl
  · exact asmSetNZ_eq (by decide) _ _
  · rfl
  · exact (fetched_fetched_charged hplain).symm
  · rfl
  · rfl

theorem matches_movWRI (hlegal : Asm.Legal opc 0x08)
    (hload : Asm.LoadEven opc (m.reg16 (rs16 opc))) :
    Matches (Asm.movWRI opc m) (Instr.movWRI opc m.fetched) := by
  rw [Asm.movWRI, illOpc_bind hlegal]
  apply matches_checkFrameSwitch
  intro hne
  rw [gets_bind, Instr.movWRI, illegalIf_bind hlegal.not_illegal, gets_bind]
  exact matches_movWCore hne hload (fetched_charged m)

theorem matches_movWRID (heven : m.pc &&& 1 = 0) (hlegal : Asm.Legal opc 0x08)
    (hplain : m.PlainOperand) (hload : Asm.LoadEven opc
      (m.peekWord (m.pc + 2).toNat + m.reg16 (rs16 opc))) :
    Matches (Asm.movWRID opc m) (Instr.movWRID opc m.fetched) := by
  rw [Asm.movWRID, illOpc_bind hlegal]
  apply matches_getWOpc heven hplain
  intro hdiv
  apply matches_checkFrameSwitch
  intro hne
  rw [gets_bind, Instr.movWRID, illegalIf_bind hlegal.not_illegal,
    nextWord_bind (even_add_two heven) hdiv, fetched_fetched]
  exact matches_movWCore hne hload (fetched_fetched_charged hplain)

theorem matches_movWA16 (heven : m.pc &&& 1 = 0) (hlegal : Asm.Legal opc 0x78)
    (hplain : m.PlainOperand)
    (hload : Asm.LoadEven opc (m.peekWord (m.pc + 2).toNat)) :
    Matches (Asm.movWA16 opc m) (Instr.movWA16 opc m.fetched) := by
  rw [Asm.movWA16, illOpc_bind hlegal]
  apply matches_getWOpc heven hplain
  intro hdiv
  apply matches_checkFrameSwitch
  intro hne
  rw [Instr.movWA16, illegalIf_bind hlegal.not_illegal,
    nextWord_bind (even_add_two heven) hdiv, fetched_fetched]
  exact matches_movWCore hne hload (fetched_fetched_charged hplain)

theorem matches_movWRIP (hlegal : Asm.Legal opc 0x08)
    (hload : Asm.LoadEven opc (m.reg16 (rs16 opc)))
    (hsafe : Asm.LoadIncSafe opc m 2 (rd16 opc = rs16 opc)) :
    Matches (Asm.movWRIP opc m) (Instr.movWRIP opc m.fetched) := by
  rw [Asm.movWRIP, illOpc_bind hlegal]
  apply matches_checkFrameSwitch
  intro hne
  rw [gets_bind, Asm.movWCore, Instr.movWRIP,
    illegalIf_bind hlegal.not_illegal, spend, change_bind]
  simp only [isStore_iff, if_true]
  by_cases hstore : Instr.isStore opc = true
  · rw [if_pos hstore, if_pos hstore, gets_bind, gets_bind, gets_bind]
    apply matches_guarded
    intro hplain
    rw [bind_ok (writeWord_plain (by exact hplain) _)]
    refine ⟨_, rfl, ?_⟩
    constructor
    · rfl
    · rfl
    · exact asmSetNZ_eq (by decide) _ _
    · rfl
    · change m.cycles + 4 * m.slow (m.reg16 (rs16 opc) - 2).toNat +
        (2 + 4 + 2 * 2 * m.slow m.pc.toNat) =
          m.fetched.cycles + 2 + m.wordCycles (m.reg16 (rs16 opc) - 2)
      rw [fetched_cycles, m.wordCycles_eq]
      omega
    · rfl
    · rfl
  · have hread : Instr.isStore opc = false := by simpa using hstore
    obtain ⟨hother, hslow⟩ := hsafe hread
    rw [if_neg hstore, if_neg hstore, gets_bind]
    apply matches_guarded
    intro hplain
    have hregs := congrArg Machine.reg (setReg16_setReg16 (m := m) hother
      (m.peekWord (m.reg16 (rs16 opc)).toNat) (m.reg16 (rs16 opc) + 2))
    rw [bind_ok (readWord_plain (by exact hload hread) (by exact hplain)),
      change_bind, change_bind, switchFrame_of_ne hne]
    refine ⟨_, rfl, ?_⟩
    constructor
    · exact hregs
    · rfl
    · exact asmSetNZ_eq (by decide) _ _
    · rfl
    · change m.cycles + 4 * m.slow ((m.reg16 (rs16 opc)).toNat + 2) +
        (2 + 4 + 2 * 2 * m.slow m.pc.toNat) =
          m.fetched.cycles + 2 + m.wordCycles (m.reg16 (rs16 opc))
      rw [fetched_cycles, m.wordCycles_eq, hslow]
      omega
    · rfl
    · rfl

end Words

end BrickEmu
