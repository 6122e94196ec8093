import BrickEmu.RunCpu

/-!
# What every instruction keeps

A relation between the machines before and after an instruction holds of all
instructions when it holds of the accesses they make and of what happens
inside the processor.  Stores come with the test for write traps in front of
them.  A relation with levels may grow weaker with every pair of parts that
follow each other, so that it can count what an instruction costs.
-/

namespace BrickEmu

open Program

namespace Machine

/-- Only the processor's own state changes, and a little time passes. -/
def Internal (m m' : Machine) : Prop :=
  ∃ reg pc ccr, ∃ n : Fin 8, ∃ irqDisabledOne dbTrap frames sleeping,
    m' = { m.addCycles n with
      reg := reg
      pc := pc
      ccr := ccr
      irqDisabledOne := irqDisabledOne
      dbTrap := dbTrap
      frames := frames
      sleeping := sleeping }

end Machine

/-- The relation holds of each part an instruction is made of, and of two
parts after each other one level up. -/
structure LevelledRule (R : ℕ → Machine → Machine → Prop) : Prop where
  leave : ∀ k m m', R k m m' → R (k + 1) m m'
  trans : ∀ k m m' m'', R k m m' → R k m' m'' → R (k + 1) m m''
  internal : ∀ k m m', m.Internal m' → R k m m'
  getWord : ∀ k addr m, R k m (Machine.getWord addr m).2
  getByteCycles : ∀ k addr m, R k m (Machine.getByteCycles addr m).2
  getWordCycles : ∀ k addr m, R k m (Machine.getWordCycles addr m).2
  setByteCycles : ∀ k addr val m,
    Machine.byteTrap MEMTYPE_WRITETRAP addr m = false →
      R k m (Machine.setByteCycles addr val m)
  setWordCycles : ∀ k addr val m,
    Machine.wordTrap MEMTYPE_WRITETRAP addr m = false →
      R k m (Machine.setWordCycles addr val m)

/-- The relation holds of each part an instruction is made of. -/
structure InstructionRule (R : Machine → Machine → Prop) : Prop where
  trans : ∀ m m' m'', R m m' → R m' m'' → R m m''
  internal : ∀ m m', m.Internal m' → R m m'
  getWord : ∀ addr m, R m (Machine.getWord addr m).2
  getByteCycles : ∀ addr m, R m (Machine.getByteCycles addr m).2
  getWordCycles : ∀ addr m, R m (Machine.getWordCycles addr m).2
  setByteCycles : ∀ addr val m,
    Machine.byteTrap MEMTYPE_WRITETRAP addr m = false →
      R m (Machine.setByteCycles addr val m)
  setWordCycles : ∀ addr val m,
    Machine.wordTrap MEMTYPE_WRITETRAP addr m = false →
      R m (Machine.setWordCycles addr val m)

namespace LevelledRule

variable {R : ℕ → Machine → Machine → Prop} (hR : LevelledRule R) {k : ℕ}

include hR

theorem refl (m : Machine) : R k m m :=
  hR.internal k m m ⟨m.reg, m.pc, m.ccr, 0, m.irqDisabledOne, m.dbTrap,
    m.frames, m.sleeping, rfl⟩

section Parts

variable {α β : Type}

theorem keeps_bind {p : Exec α} {f : α → Exec β} (hp : Keeps (R k) p)
    (hf : ∀ a, Keeps (R k) (f a)) : Keeps (R (k + 1)) (p >>= f) :=
  Program.keeps_bind (hR.leave k) (hR.trans k) hp hf

theorem keeps_pure (a : α) : Keeps (R k) (return a : Exec α) :=
  Program.keeps_pure hR.refl a

theorem keeps_gets (f : Machine → α) : Keeps (R k) (gets f : Exec α) :=
  Program.keeps_gets hR.refl f

theorem keeps_leaveIf (condition : Machine → Bool) (exit : Exit)
    {last : Machine → Machine} (hlast : ∀ m, Machine.Internal m (last m)) :
    Keeps (R k) (leaveIf condition exit last) :=
  Program.keeps_leaveIf hR.refl fun m => hR.internal _ m _ (hlast m)

theorem keeps_internal {f : Machine → Machine}
    (h : ∀ m, Machine.Internal m (f m)) : Keeps (R k) (change f : Exec Unit) :=
  fun m => hR.internal _ m _ (h m)

theorem keeps_trapIf (condition : Machine → Bool) :
    Keeps (R k) (trapIf condition) :=
  hR.keeps_leaveIf condition .trap fun _ => ⟨_, _, _, 0, _, _, _, _, rfl⟩

theorem keeps_illegalIf (condition : Bool) :
    Keeps (R k) (illegalIf condition) :=
  hR.keeps_leaveIf _ .illOpc fun _ => ⟨_, _, _, 0, _, _, _, _, rfl⟩

theorem keeps_checkPc : Keeps (R k) checkPc :=
  hR.keeps_leaveIf _ .fault fun _ => ⟨_, _, _, 0, _, _, _, _, rfl⟩

theorem keeps_getOpcode : Keeps (R (k + 3)) getOpcode := by
  apply hR.keeps_bind (hR.keeps_trapIf _)
  intro _
  apply hR.keeps_bind (keeps_act fun m => hR.getWordCycles _ m.pc m)
  intro opc
  apply hR.keeps_bind (hR.keeps_internal fun _ => ⟨_, _, _, 0, _, _, _, _, rfl⟩)
  intro _
  exact hR.keeps_pure opc

theorem keeps_readByte (addr : Word) : Keeps (R (k + 2)) (readByte addr) := by
  apply hR.keeps_bind (keeps_act fun m => hR.getByteCycles _ addr m)
  intro val
  apply hR.keeps_bind (hR.keeps_trapIf _)
  intro _
  exact hR.keeps_pure val

theorem keeps_readWord (addr : Word) : Keeps (R (k + 2)) (readWord addr) := by
  apply hR.keeps_bind (keeps_act fun m => hR.getWordCycles _ addr m)
  intro val
  apply hR.keeps_bind (hR.keeps_trapIf _)
  intro _
  exact hR.keeps_pure val

/-- A store behind its trap test. -/
theorem keeps_store {trap : Machine → Bool} {store : Machine → Machine}
    (hstore : ∀ m, trap m = false → R k m (store m)) :
    Keeps (R k) (trapIf trap >>= fun _ => change store : Exec Unit) := by
  intro m
  by_cases htrap : trap m = true
  · rw [trapIf, leaveIf_bind_pos htrap]
    exact hR.refl m
  · have htrap : trap m = false := by simpa using htrap
    rw [trapIf, leaveIf_bind_neg htrap]
    exact hstore m htrap

theorem keeps_writeByte (addr : Word) (val : Byte) :
    Keeps (R k) (writeByte addr val) :=
  hR.keeps_store fun m => hR.setByteCycles _ addr val m

theorem keeps_writeWord (addr : Word) (val : Word) :
    Keeps (R k) (writeWord addr val) :=
  hR.keeps_store fun m => hR.setWordCycles _ addr val m

theorem keeps_prefetch : Keeps (R k) prefetch :=
  keeps_act fun m => hR.getWordCycles _ m.pc m

theorem keeps_nextWord : Keeps (R (k + 2)) nextWord := by
  apply hR.keeps_bind hR.keeps_prefetch
  intro val
  apply hR.keeps_bind (hR.keeps_internal fun _ => ⟨_, _, _, 0, _, _, _, _, rfl⟩)
  intro _
  exact hR.keeps_pure val

theorem keeps_spend (n : Fin 8) : Keeps (R k) (spend n) :=
  hR.keeps_internal fun _ => ⟨_, _, _, n, _, _, _, _, rfl⟩

theorem keeps_setPc (pc : Machine → Word) :
    Keeps (R k) (change fun m => m.setPc (pc m) : Exec Unit) :=
  hR.keeps_internal fun _ => ⟨_, _, _, 0, _, _, _, _, rfl⟩

theorem keeps_setFlags {w : ℕ} (dest : BitVec w) :
    Keeps (R k) (Instr.setFlags dest) :=
  hR.keeps_internal fun _ => ⟨_, _, _, 0, _, _, _, _, rfl⟩

theorem keeps_setReg (nr : BitVec 4) (val : Byte) :
    Keeps (R k) (change fun m => m.setReg nr val : Exec Unit) :=
  hR.keeps_internal fun _ => ⟨_, _, _, 0, _, _, _, _, rfl⟩

theorem keeps_setReg16 (nr : BitVec 3) (val : Word) :
    Keeps (R k) (change fun m => m.setReg16 nr val : Exec Unit) :=
  hR.keeps_internal fun _ => ⟨_, _, _, 0, _, _, _, _, rfl⟩

theorem keeps_switchFrame (nr : BitVec 3) (dest : Word) :
    Keeps (R k) (change (Machine.switchFrame nr dest) : Exec Unit) := by
  apply hR.keeps_internal
  intro m
  unfold Machine.switchFrame
  split_ifs <;> exact ⟨_, _, _, 0, _, _, _, _, rfl⟩

theorem keeps_compute (illegal : Bool) {run : Machine → Machine}
    (hrun : ∀ m, Machine.Internal m (run m)) :
    Keeps (R (k + 1)) (compute illegal run) := by
  apply hR.keeps_bind (hR.keeps_illegalIf illegal)
  intro _
  exact hR.keeps_internal hrun

theorem keeps_call {target : Exec Word} (htarget : Keeps (R (k + 3)) target) :
    Keeps (R (k + 7)) (call target) := by
  apply hR.keeps_bind (hR.keeps_gets _)
  intro sp
  apply hR.keeps_bind (hR.keeps_gets _)
  intro pc
  apply hR.keeps_bind (hR.keeps_writeWord sp pc)
  intro _
  apply hR.keeps_bind htarget
  intro pc
  apply hR.keeps_bind (hR.keeps_setPc fun _ => pc)
  intro _
  apply hR.keeps_bind hR.keeps_checkPc
  intro _
  apply hR.keeps_bind (hR.keeps_internal fun _ => ⟨_, _, _, 0, _, _, _, _, rfl⟩)
  intro _
  exact hR.keeps_setReg16 7 sp

end Parts

section Bodies

variable (opc : Word)

theorem keeps_bitReg (op : Instr.BitOp) :
    Keeps (R (k + 1)) (Instr.bitReg opc op) :=
  hR.keeps_compute op.illegal fun _ => ⟨_, _, _, 0, _, _, _, _, rfl⟩

theorem keeps_bitMemory (write indirect : Bool) (addr : Word) :
    Keeps (R (k + 6)) (Instr.bitMemory write indirect addr) := by
  apply hR.keeps_bind (hR.keeps_readByte addr)
  intro val
  apply hR.keeps_bind hR.keeps_getOpcode
  intro opc
  apply hR.keeps_bind (hR.keeps_illegalIf _)
  intro _
  cases Instr.bitop opc write with
  | none => exact hR.keeps_illegalIf true
  | some op =>
      apply hR.keeps_bind (hR.keeps_illegalIf _)
      intro _
      apply hR.keeps_bind (hR.keeps_gets _)
      intro result
      apply hR.keeps_bind
        (hR.keeps_internal fun _ => ⟨_, _, _, 0, _, _, _, _, rfl⟩)
      intro _
      cases write with
      | true => exact hR.keeps_writeByte addr result.1
      | false => exact hR.keeps_pure ()

theorem keeps_bitInd : Keeps (R (k + 8)) (Instr.bitInd opc) := by
  apply hR.keeps_bind (hR.keeps_illegalIf _)
  intro _
  apply hR.keeps_bind (hR.keeps_gets _)
  intro addr
  exact hR.keeps_bitMemory _ true addr

theorem keeps_branch (taken : Byte → Bool) :
    Keeps (R (k + 2)) (Instr.branch opc taken) := by
  apply hR.keeps_bind hR.keeps_prefetch
  intro _
  have hjump : Keeps (R k) (change fun m =>
      if taken m.ccr then m.setPc (m.pc + displacement opc) else m :
        Exec Unit) := by
    apply hR.keeps_internal
    intro m
    split_ifs <;> exact ⟨_, _, _, 0, _, _, _, _, rfl⟩
  apply hR.keeps_bind hjump
  intro _
  exact hR.keeps_checkPc

/-- A jump to a computed target. -/
theorem keeps_jump {target : Exec Word} (htarget : Keeps (R (k + 2)) target) :
    Keeps (R (k + 3)) (target >>= fun pc =>
      change (Machine.setPc pc) >>= fun _ => checkPc) := by
  apply hR.keeps_bind htarget
  intro pc
  apply hR.keeps_bind (hR.keeps_setPc fun _ => pc)
  intro _
  exact hR.keeps_checkPc

theorem keeps_jmpRI : Keeps (R (k + 3)) (Instr.jmpRI opc) := by
  apply hR.keeps_bind (hR.keeps_illegalIf _)
  intro _
  apply hR.keeps_bind hR.keeps_prefetch
  intro _
  apply hR.keeps_bind (hR.keeps_setPc _)
  intro _
  exact hR.keeps_checkPc

theorem keeps_jmpA16 : Keeps (R (k + 5)) (Instr.jmpA16 opc) := by
  apply hR.keeps_bind (hR.keeps_illegalIf _)
  intro _
  apply hR.keeps_bind (hR.keeps_spend 2)
  intro _
  exact hR.keeps_jump hR.keeps_prefetch

theorem keeps_jmpAA8 : Keeps (R (k + 5)) (Instr.jmpAA8 opc) := by
  apply hR.keeps_bind hR.keeps_prefetch
  intro _
  apply hR.keeps_bind (hR.keeps_spend 2)
  intro _
  exact hR.keeps_jump (hR.keeps_readWord _)

theorem keeps_jsrRI : Keeps (R (k + 9)) (Instr.jsrRI opc) := by
  apply hR.keeps_bind (hR.keeps_illegalIf _)
  intro _
  apply hR.keeps_bind hR.keeps_prefetch
  intro _
  exact hR.keeps_call (hR.keeps_gets _)

theorem keeps_jsrA16 : Keeps (R (k + 10)) (Instr.jsrA16 opc) := by
  apply hR.keeps_bind (hR.keeps_illegalIf _)
  intro _
  apply hR.keeps_bind hR.keeps_nextWord
  intro addr
  apply hR.keeps_bind (hR.keeps_spend 2)
  intro _
  exact hR.keeps_call (hR.keeps_pure addr)

theorem keeps_endFrame (fp : Word) :
    Keeps (R k) (change (Machine.endFrame fp) : Exec Unit) :=
  hR.keeps_internal fun _ => ⟨_, _, _, 0, _, _, _, _, rfl⟩

/-- The end of a return: the target and the stack pointer. -/
theorem keeps_leave (addr sp : Word) :
    Keeps (R (k + 3)) (readWord addr >>= fun pc =>
      change (Machine.setPc pc) >>= fun _ => checkPc >>= fun _ =>
        change fun m => m.setReg16 7 sp : Exec Unit) := by
  apply hR.keeps_bind (hR.keeps_readWord addr)
  intro pc
  apply hR.keeps_bind (hR.keeps_setPc fun _ => pc)
  intro _
  apply hR.keeps_bind hR.keeps_checkPc
  intro _
  exact hR.keeps_setReg16 7 sp

theorem keeps_rtS : Keeps (R (k + 7)) Instr.rtS := by
  apply hR.keeps_bind hR.keeps_prefetch
  intro _
  apply hR.keeps_bind (hR.keeps_spend 2)
  intro _
  apply hR.keeps_bind (hR.keeps_gets _)
  intro fp
  apply hR.keeps_bind (hR.keeps_endFrame fp)
  intro _
  exact hR.keeps_leave fp (fp + 2)

theorem keeps_rtE : Keeps (R (k + 9)) Instr.rtE := by
  apply hR.keeps_bind hR.keeps_prefetch
  intro _
  apply hR.keeps_bind (hR.keeps_spend 2)
  intro _
  apply hR.keeps_bind (hR.keeps_gets _)
  intro fp
  apply hR.keeps_bind (hR.keeps_endFrame (fp + 2))
  intro _
  apply hR.keeps_bind (hR.keeps_readWord fp)
  intro ccrword
  apply hR.keeps_bind (hR.keeps_internal fun _ => ⟨_, _, _, 0, _, _, _, _, rfl⟩)
  intro _
  exact hR.keeps_leave (fp + 2) (fp + 4)

theorem keeps_storeByte (addr : Word) (nr : BitVec 4) :
    Keeps (R (k + 2)) (Instr.storeByte addr nr) := by
  apply hR.keeps_bind (hR.keeps_gets _)
  intro dest
  apply hR.keeps_bind (hR.keeps_writeByte addr dest)
  intro _
  exact hR.keeps_setFlags dest

theorem keeps_loadByte (addr : Word) (nr : BitVec 4) :
    Keeps (R (k + 3)) (Instr.loadByte addr nr) := by
  apply hR.keeps_bind (hR.keeps_readByte addr)
  intro dest
  apply hR.keeps_bind (hR.keeps_setReg nr dest)
  intro _
  exact hR.keeps_setFlags dest

theorem keeps_storeWord (addr : Word) (nr : BitVec 3) :
    Keeps (R (k + 2)) (Instr.storeWord addr nr) := by
  apply hR.keeps_bind (hR.keeps_gets _)
  intro dest
  apply hR.keeps_bind (hR.keeps_writeWord addr dest)
  intro _
  exact hR.keeps_setFlags dest

theorem keeps_loadWord (addr : Word) (nr : BitVec 3) :
    Keeps (R (k + 3)) (Instr.loadWord addr nr) := by
  apply hR.keeps_bind (hR.keeps_readWord addr)
  intro dest
  apply hR.keeps_bind (hR.keeps_switchFrame nr dest)
  intro _
  apply hR.keeps_bind (hR.keeps_setReg16 nr dest)
  intro _
  exact hR.keeps_setFlags dest

theorem keeps_moveByte (addr : Word) :
    Keeps (R (k + 3)) (Instr.moveByte opc addr) := by
  unfold Instr.moveByte
  split_ifs
  · exact hR.keeps_storeByte addr _
  · exact hR.keeps_loadByte addr _

theorem keeps_moveWord (addr : Word) :
    Keeps (R (k + 3)) (Instr.moveWord opc addr) := by
  unfold Instr.moveWord
  split_ifs
  · exact hR.keeps_storeWord addr _
  · exact hR.keeps_loadWord addr _

theorem keeps_movBRID : Keeps (R (k + 5)) (Instr.movBRID opc) := by
  apply hR.keeps_bind hR.keeps_nextWord
  intro disp
  apply hR.keeps_bind (hR.keeps_gets _)
  intro addr
  exact hR.keeps_moveByte opc addr

theorem keeps_movBRIP : Keeps (R (k + 5)) (Instr.movBRIP opc) := by
  apply hR.keeps_bind (hR.keeps_spend 2)
  intro _
  split_ifs
  · apply hR.keeps_bind (hR.keeps_gets _)
    intro addr
    apply hR.keeps_bind (hR.keeps_gets _)
    intro dest
    apply hR.keeps_bind (hR.keeps_writeByte addr dest)
    intro _
    apply hR.keeps_bind (hR.keeps_setReg16 _ addr)
    intro _
    exact hR.keeps_setFlags dest
  · apply hR.keeps_bind (hR.keeps_gets _)
    intro addr
    apply hR.keeps_bind (hR.keeps_readByte addr)
    intro dest
    apply hR.keeps_bind (hR.keeps_setReg16 _ (addr + 1))
    intro _
    apply hR.keeps_bind (hR.keeps_setReg _ dest)
    intro _
    exact hR.keeps_setFlags dest

theorem keeps_movBFA8 : Keeps (R (k + 3)) (Instr.movBFA8 opc) := by
  apply hR.keeps_bind (hR.keeps_readByte _)
  intro dest
  apply hR.keeps_bind (hR.keeps_setFlags dest)
  intro _
  exact hR.keeps_setReg _ dest

theorem keeps_movBTA8 : Keeps (R (k + 2)) (Instr.movBTA8 opc) := by
  apply hR.keeps_bind (hR.keeps_gets _)
  intro dest
  apply hR.keeps_bind (hR.keeps_setFlags dest)
  intro _
  exact hR.keeps_writeByte _ dest

theorem keeps_movBA16 : Keeps (R (k + 5)) (Instr.movBA16 opc) := by
  apply hR.keeps_bind (hR.keeps_illegalIf _)
  intro _
  apply hR.keeps_bind hR.keeps_nextWord
  intro addr
  exact hR.keeps_moveByte opc addr

theorem keeps_setWord (dest : Word) :
    Keeps (R (k + 2)) (Instr.setWord opc dest) := by
  apply hR.keeps_bind (hR.keeps_setFlags dest)
  intro _
  apply hR.keeps_bind (hR.keeps_switchFrame _ dest)
  intro _
  exact hR.keeps_setReg16 _ dest

theorem keeps_movW : Keeps (R (k + 4)) (Instr.movW opc) := by
  apply hR.keeps_bind (hR.keeps_illegalIf _)
  intro _
  apply hR.keeps_bind (hR.keeps_gets _)
  intro dest
  exact hR.keeps_setWord opc dest

theorem keeps_movWI : Keeps (R (k + 4)) (Instr.movWI opc) := by
  apply hR.keeps_bind (hR.keeps_illegalIf _)
  intro _
  apply hR.keeps_bind hR.keeps_nextWord
  intro dest
  exact hR.keeps_setWord opc dest

theorem keeps_movWRI : Keeps (R (k + 5)) (Instr.movWRI opc) := by
  apply hR.keeps_bind (hR.keeps_illegalIf _)
  intro _
  apply hR.keeps_bind (hR.keeps_gets _)
  intro addr
  exact hR.keeps_moveWord opc addr

theorem keeps_movWRID : Keeps (R (k + 6)) (Instr.movWRID opc) := by
  apply hR.keeps_bind (hR.keeps_illegalIf _)
  intro _
  apply hR.keeps_bind hR.keeps_nextWord
  intro disp
  apply hR.keeps_bind (hR.keeps_gets _)
  intro addr
  exact hR.keeps_moveWord opc addr

theorem keeps_movWRIP : Keeps (R (k + 7)) (Instr.movWRIP opc) := by
  apply hR.keeps_bind (hR.keeps_illegalIf _)
  intro _
  apply hR.keeps_bind (hR.keeps_spend 2)
  intro _
  split_ifs
  · apply hR.keeps_bind (hR.keeps_gets _)
    intro addr
    apply hR.keeps_bind (hR.keeps_gets _)
    intro dest
    apply hR.keeps_bind (hR.keeps_writeWord addr dest)
    intro _
    apply hR.keeps_bind (hR.keeps_setReg16 _ addr)
    intro _
    exact hR.keeps_setFlags dest
  · apply hR.keeps_bind (hR.keeps_gets _)
    intro addr
    apply hR.keeps_bind (hR.keeps_readWord addr)
    intro dest
    apply hR.keeps_bind (hR.keeps_setReg16 _ (addr + 2))
    intro _
    apply hR.keeps_bind (hR.keeps_switchFrame _ dest)
    intro _
    apply hR.keeps_bind (hR.keeps_setReg16 _ dest)
    intro _
    exact hR.keeps_setFlags dest

theorem keeps_movWA16 : Keeps (R (k + 5)) (Instr.movWA16 opc) := by
  apply hR.keeps_bind (hR.keeps_illegalIf _)
  intro _
  apply hR.keeps_bind hR.keeps_nextWord
  intro addr
  exact hR.keeps_moveWord opc addr

theorem keeps_nop : Keeps (R (k + 1)) (Instr.nop opc) := by
  unfold Instr.nop
  split_ifs
  · apply hR.keeps_bind (keeps_act fun m => hR.getWord _ m.pc m)
    intro _
    exact hR.keeps_pure ()
  · exact hR.keeps_pure ()

theorem keeps_eepMov : Keeps (R (k + 2)) Instr.eepMov := by
  apply hR.keeps_bind (hR.keeps_setPc _)
  intro _
  apply hR.keeps_bind (keeps_act fun m => hR.getWord _ m.pc m)
  intro _
  exact hR.keeps_internal fun _ => ⟨_, _, _, 0, _, _, _, _, rfl⟩

theorem keeps_not : Keeps (R (k + 1)) (Instr.not opc) := by
  apply hR.keeps_compute
  intro m
  split_ifs <;> exact ⟨_, _, _, 0, _, _, _, _, rfl⟩

end Bodies

/-- Every instruction keeps the relation. -/
theorem keeps_body (opc : Word) (mnemonic : Mnemonic) :
    Keeps (R (k + 10)) (mnemonic.body opc) := by
  cases mnemonic with
  | nop => exact hR.keeps_nop opc
  | sleep | trap =>
      exact hR.keeps_internal fun _ => ⟨_, _, _, 0, _, _, _, _, rfl⟩
  | stC | ldC | orC | xorC | andC | ldCI | addB | addW | inc | addS | movB
  | addX | daa | shL | shR | rotL | rotR | or | xor | and | subB | subW | dec
  | subS | cmpB | cmpW | subX | das | addBI | addXI | cmpBI | subXI | orI
  | xorI | andI | movBI =>
      exact hR.keeps_compute _ fun _ => ⟨_, _, _, 0, _, _, _, _, rfl⟩
  | mulXU | divXU =>
      exact hR.keeps_compute _ fun _ => ⟨_, _, _, 6, _, _, _, _, rfl⟩
  | not => exact hR.keeps_not opc
  | bra | bhi | blo | bcc | bcs | bne | beq | bvc | bvs | bpl | bmi | bge
  | blt | bgt | ble =>
      simp only [Mnemonic.body, Instr.bra, Instr.bhi, Instr.blo, Instr.bcc,
        Instr.bcs, Instr.bne, Instr.beq, Instr.bvc, Instr.bvs, Instr.bpl,
        Instr.bmi, Instr.bge, Instr.blt, Instr.bgt, Instr.ble]
      apply hR.keeps_branch
  | brn =>
      apply hR.keeps_bind hR.keeps_prefetch
      intro _
      exact hR.keeps_pure ()
  | rtS => exact hR.keeps_rtS
  | rtE => exact hR.keeps_rtE
  | bSr =>
      apply hR.keeps_bind hR.keeps_prefetch
      intro _
      exact hR.keeps_call (hR.keeps_gets _)
  | jmpRI => exact hR.keeps_jmpRI opc
  | jmpA16 => exact hR.keeps_jmpA16 opc
  | jmpAA8 => exact hR.keeps_jmpAA8 opc
  | jsrRI => exact hR.keeps_jsrRI opc
  | jsrA16 => exact hR.keeps_jsrA16 opc
  | jsrAA8 =>
      apply hR.keeps_bind hR.keeps_prefetch
      intro _
      exact hR.keeps_call (hR.keeps_readWord _)
  | bSet | bNot | bClr | bTst | bSt | bSetI | bNotI | bClrI | bTstI | bOr
  | bXor | bAnd | bLd => exact hR.keeps_bitReg opc _
  | movBRI =>
      apply hR.keeps_bind (hR.keeps_gets _)
      intro addr
      exact hR.keeps_moveByte opc addr
  | movW => exact hR.keeps_movW opc
  | movWI => exact hR.keeps_movWI opc
  | movWRI => exact hR.keeps_movWRI opc
  | movBA16 => exact hR.keeps_movBA16 opc
  | movWA16 => exact hR.keeps_movWA16 opc
  | movBRIP => exact hR.keeps_movBRIP opc
  | movWRIP => exact hR.keeps_movWRIP opc
  | movBRID => exact hR.keeps_movBRID opc
  | movWRID => exact hR.keeps_movWRID opc
  | movBFA8 => exact hR.keeps_movBFA8 opc
  | movBTA8 => exact hR.keeps_movBTA8 opc
  | eepMov => exact hR.keeps_eepMov
  | bitInd => exact hR.keeps_bitInd opc
  | bitAbs => exact hR.keeps_bitMemory _ false _

theorem keeps_executeInstruction : Keeps (R (k + 12)) executeInstruction := by
  apply hR.keeps_bind hR.keeps_getOpcode
  intro opc
  generalize Mnemonic.decode (opc >>> 8).toNat = decoded
  cases decoded with
  | some mnemonic =>
      exact hR.keeps_bind (hR.keeps_body opc mnemonic) fun _ =>
        hR.keeps_pure (decide (mnemonic = .sleep))
  | none =>
      apply hR.keeps_bind (hR.keeps_illegalIf true)
      intro _
      exact hR.keeps_pure false

end LevelledRule

namespace InstructionRule

variable {R : Machine → Machine → Prop}

theorem levelled (hR : InstructionRule R) : LevelledRule fun _ => R where
  leave _ _ _ h := h
  trans _ := hR.trans
  internal _ := hR.internal
  getWord _ := hR.getWord
  getByteCycles _ := hR.getByteCycles
  getWordCycles _ := hR.getWordCycles
  setByteCycles _ := hR.setByteCycles
  setWordCycles _ := hR.setWordCycles

theorem keeps_executeInstruction (hR : InstructionRule R) :
    Keeps R executeInstruction :=
  hR.levelled.keeps_executeInstruction (k := 0)

end InstructionRule

end BrickEmu
