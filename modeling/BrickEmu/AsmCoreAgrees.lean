import BrickEmu.AsmBits

/-!
# The assembler core does what the C code does

One case for each entry of the jump table, and from them the instruction with
its fetch.
-/

namespace BrickEmu

open Program

variable {opc : Word} {m : Machine}

theorem matches_handBack {c : Except Exit Unit × Machine} :
    Matches (Asm.handBack m) c := by
  have hback : Asm.handBack m = (.error .cleanUp, m) := rfl
  rw [hback]
  trivial

theorem matches_body {mnemonic : Mnemonic} (heven : m.pc &&& 1 = 0)
    (hsafe : Asm.Safe opc m mnemonic) :
    Matches (Asm.body opc mnemonic m) (mnemonic.body opc m.fetched) := by
  cases mnemonic with
  | nop => exact matches_nop heven hsafe.1 hsafe.2
  | stC => exact matches_stC hsafe
  | addB => exact matches_addB
  | addX => exact matches_addX
  | subB => exact matches_subB
  | subX => exact matches_subX
  | cmpB => exact matches_cmpB
  | addBI => exact matches_addBI
  | addXI => exact matches_addXI
  | subXI => exact matches_subXI
  | cmpBI => exact matches_cmpBI
  | addW => exact matches_addW hsafe
  | subW => exact matches_subW hsafe
  | cmpW => exact matches_cmpW hsafe
  | addS => exact matches_addS hsafe
  | subS => exact matches_subS hsafe
  | inc => exact matches_inc hsafe
  | dec => exact matches_dec hsafe
  | bSetI | bNotI | bClrI =>
      dsimp only [Asm.body, Mnemonic.body]
      apply matches_bitImmediate hsafe <;> rfl
  | bTstI => exact matches_bTstI hsafe
  | bTst => exact matches_bTst
  | bitInd =>
      change Matches ((if opc.getLsbD 8 then Asm.bitInd1 opc
        else Asm.handBack) m) _
      split_ifs with hwrite
      · exact matches_bitInd heven hwrite (hsafe hwrite).1 (hsafe hwrite).2
      · exact matches_handBack
  | bitAbs =>
      change Matches ((if opc.getLsbD 8 then Asm.bitAbs1 opc
        else Asm.handBack) m) _
      split_ifs with hwrite
      · exact matches_bitAbs heven hwrite (hsafe hwrite)
      · exact matches_handBack
  | bra => exact matches_bra heven hsafe
  | bhi | blo | bcc | bcs | bne | beq | bvc | bvs | bpl | bmi | bge | blt |
    bgt | ble =>
      dsimp only [Asm.Safe] at hsafe
      dsimp only [Asm.body, Mnemonic.body]
      exact matches_branch heven hsafe
  | brn | trap => exact hsafe.elim
  | jmpRI => exact matches_jmpRI heven hsafe.1 hsafe.2.1 hsafe.2.2
  | jmpA16 => exact matches_jmpA16 heven hsafe.1 hsafe.2.1 hsafe.2.2
  | bSr => exact matches_bSr heven hsafe.1 hsafe.2
  | jsrRI => exact matches_jsrRI heven hsafe.1 hsafe.2.1 hsafe.2.2
  | jsrA16 => exact matches_jsrA16 heven hsafe.1 hsafe.2.1 hsafe.2.2
  | rtS => exact matches_rtS heven hsafe
  | rtE => exact matches_rtE heven hsafe
  | movB => exact matches_movB
  | movBI => exact matches_movBI
  | movBRI => exact matches_movBRI
  | movBRID => exact matches_movBRID heven hsafe
  | movBRIP => exact matches_movBRIP hsafe
  | movBA16 => exact matches_movBA16 heven hsafe.1 hsafe.2
  | movBFA8 => exact matches_movBFA8 hsafe.1 hsafe.2
  | movBTA8 => exact matches_movBTA8 hsafe.1 hsafe.2
  | movW => exact matches_movW hsafe
  | movWI => exact matches_movWI heven hsafe.1 hsafe.2
  | movWRI => exact matches_movWRI hsafe.1 hsafe.2
  | movWRID => exact matches_movWRID heven hsafe.1 hsafe.2.1 hsafe.2.2
  | movWRIP => exact matches_movWRIP hsafe.1 hsafe.2.1 hsafe.2.2
  | movWA16 => exact matches_movWA16 heven hsafe.1 hsafe.2.1 hsafe.2.2
  | shL => exact matches_shL hsafe
  | or | xor | and => exact matches_logicR
  | orI | xorI | andI => exact matches_logicI
  | _ => exact matches_handBack

section Instruction

/-- Without traps on its first word an instruction is fetched and executed. -/
theorem executeInstruction_eq {mnemonic : Mnemonic} {m' : Machine}
    (heven : m.pc &&& 1 = 0) (hfirst : m.marked 0x81 m.pc.toNat = false)
    (hsecond : m.marked MEMTYPE_BREAKPOINT (m.pc.toNat + 1) = false)
    (hdecode : Mnemonic.decode (m.peekWord m.pc.toNat >>> 8).toNat =
      some mnemonic)
    (hbody : mnemonic.body (m.peekWord m.pc.toNat) m.fetched =
      (.ok (), m')) :
    executeInstruction m = (.ok (decide (mnemonic = .sleep)), m') := by
  rw [executeInstruction, bind_ok (getOpcode_plain heven hfirst hsecond),
    hdecode]
  exact bind_ok hbody _

theorem asmInstruction_eq {mnemonic : Mnemonic}
    (hfirst : m.marked 0x81 m.pc.toNat = false)
    (hdecode : Mnemonic.decode (m.peekWord m.pc.toNat >>> 8).toNat =
      some mnemonic) :
    asmInstruction m = Asm.body (m.peekWord m.pc.toNat) mnemonic m := by
  rw [asmInstruction, Asm.cleanUpIf, leaveIf_bind_neg (by exact hfirst),
    gets_bind, hdecode]

theorem asm_agrees (hsafe : m.AsmSafe) : m.AsmAgrees := by
  intro heven m' hm'
  obtain ⟨hsecond, mnemonic, hdecode, hbody⟩ := hsafe
  by_cases hfirst : m.marked 0x81 m.pc.toNat = true
  · have hback : asmInstruction m = (.error .cleanUp, m) := by
      rw [asmInstruction, Asm.cleanUpIf]
      exact leaveIf_bind_pos hfirst _
    rw [Machine.afterAsm, hback] at hm'
    cases hm'
  · have hfirst : m.marked 0x81 m.pc.toNat = false := by simpa using hfirst
    have hmatch := matches_body heven hbody
    rw [Machine.afterAsm, asmInstruction_eq hfirst hdecode] at hm'
    rcases hasm : Asm.body (m.peekWord m.pc.toNat) mnemonic m with
      ⟨result, mA⟩
    rw [hasm] at hm' hmatch
    cases result with
    | ok value =>
        obtain ⟨mC, hc, hsame⟩ := hmatch
        cases hm'
        rw [Machine.afterC,
          executeInstruction_eq heven hfirst hsecond hdecode hc]
        exact hsame
    | error exit =>
        cases exit with
        | cleanUp => cases hm'
        | illegalOpcode => exact hmatch.elim
        | unaligned => exact hmatch.elim
        | trap => exact hmatch.elim

/-- `MOV.W @R1+,R0` in the internal memory. -/
def loading : Machine :=
  { Machine.powerOn (fun _ => none) [] [] [] with
    pc := 0xfe00
    reg := fun nr => if nr = 1 then 0xfd else if nr = 9 then 0x80 else 0
    memory := fun addr =>
      if addr = 0xfe00 then 0x6d else if addr = 0xfe01 then 0x10
      else if addr = 0xfd80 then 0x12 else 0 }

/-- The core executes the load itself. -/
theorem asm_agrees_loading :
    loading.pc &&& 1 = 0 ∧ loading.AsmAgrees ∧
      (loading.afterAsm.map fun m => (m.reg16 0, m.reg16 1, m.pc, m.cycles)) =
        some (0x1200, 0xfd82, 0xfe02, 6) := by
  have hlegal : opcval (loading.peekWord loading.pc.toNat) &&& 0x08 = 0 := by
    decide
  refine ⟨by decide, asm_agrees ⟨by decide, .movWRIP, by decide, ?_⟩, by decide⟩
  exact ⟨hlegal, fun _ => by decide, fun _ => ⟨by decide, by decide⟩⟩

end Instruction

end BrickEmu
