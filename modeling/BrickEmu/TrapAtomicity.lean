import BrickEmu.RomProtection

/-!
# Instructions that leave

An instruction that leaves through one of the labels of `run_cpu` can be
executed again: the processor and the memory are as they were, but for what
the instruction does in front of its last test.  The move to a short address
sets the flags first, the returns end the frame and `RTE` loads the flags
first, and the calls push the return address in front of the test of the
target.  Registers of the peripherals may have been read.
-/

namespace BrickEmu

open Program

/-- What an instruction may have changed by the time it leaves. -/
structure Excused where
  flags : Prop
  frames : Prop
  bytes : ℕ → Prop

namespace Machine

/-- Apart from what is excused and the registers of the peripherals nothing
has changed that an instruction works on. -/
structure Intact (e : Excused) (m m' : Machine) : Prop where
  reg : m'.reg = m.reg
  ccr : ¬e.flags → m'.ccr = m.ccr
  frames : ¬e.frames → m'.frames = m.frames
  memtype : m'.memtype = m.memtype
  singlestep : m'.dbSinglestepPc = m.dbSinglestepPc
  memory : ∀ addr, Port.ofAddr addr = none → ¬e.bytes addr →
    m'.memory addr = m.memory addr

variable {e : Excused} {m m' : Machine}

namespace Intact

theorem refl (m : Machine) : Intact e m m :=
  ⟨rfl, fun _ => rfl, fun _ => rfl, rfl, rfl, fun _ _ _ => rfl⟩

theorem trans (m m' m'' : Machine) (h : Intact e m m')
    (h' : Intact e m' m'') : Intact e m m'' where
  reg := h'.reg.trans h.reg
  ccr hflags := (h'.ccr hflags).trans (h.ccr hflags)
  frames hframes := (h'.frames hframes).trans (h.frames hframes)
  memtype := h'.memtype.trans h.memtype
  singlestep := h'.singlestep.trans h.singlestep
  memory addr hport hbyte :=
    (h'.memory addr hport hbyte).trans (h.memory addr hport hbyte)

theorem of_access (h : AccessEffect m m')
    (hmemory : ∀ addr, Port.ofAddr addr = none → ¬e.bytes addr →
      m'.memory addr = m.memory addr) : Intact e m m' := by
  obtain ⟨_, _, _, _, _, _, _, _, _, rfl⟩ := h
  exact ⟨rfl, fun _ => rfl, fun _ => rfl, rfl, rfl, hmemory⟩

theorem of_flags (hflags : e.flags) (ccr : Byte) (m : Machine) :
    Intact e m (m.setCcr ccr) :=
  ⟨rfl, fun hnot => absurd hflags hnot, fun _ => rfl, rfl, rfl,
    fun _ _ _ => rfl⟩

end Intact

section Reads

variable {other : ℕ}

theorem refresh_memory (addr : ℕ) (hport : Port.ofAddr other = none)
    (m : Machine) : (m.refresh addr).memory other = m.memory other := by
  unfold refresh
  split
  · next port haddr =>
      have hne : other ≠ addr := by
        rintro rfl
        rw [hport] at haddr
        cases haddr
      split
      · next val m' hget =>
          rw [← portGet_memory hget]
          exact Function.update_of_ne hne ..
      · rfl
  · rfl

theorem getByte_memory (addr : Word) (hport : Port.ofAddr other = none)
    (m : Machine) : (m.getByte addr).2.memory other = m.memory other := by
  unfold getByte getByteDiv
  split_ifs
  · exact refresh_memory addr.toNat hport m
  · rfl
  · rfl

theorem getWord_memory (addr : Word) (hport : Port.ofAddr other = none)
    (m : Machine) : (m.getWord addr).2.memory other = m.memory other := by
  unfold getWord getWordDiv
  split_ifs
  · rfl
  · rfl
  · exact (refresh_memory _ hport _).trans (refresh_memory addr.toNat hport m)
  · rfl

/-- A word outside the peripherals is stored in its two bytes. -/
theorem setWord_memory_plain {addr : Word} (hplain : m.isDiv addr.toNat = false)
    (val : Word) (other : ℕ) :
    (m.setWord addr val).memory other =
      if other = addr.toNat + 1 then val.extractLsb' 0 8
      else if other = addr.toNat then val.extractLsb' 8 8
      else m.memory other := by
  have hdiv : ¬m.memtype addr.toNat &&& MEMTYPE_DIV ≠ 0 := by
    simpa [isDiv] using hplain
  have hstored : (m.setWord addr val).memory =
      ((m.poke addr.toNat (val.extractLsb' 8 8)).poke (addr.toNat + 1)
        (val.extractLsb' 0 8)).memory := by
    simp only [setWord]
    rw [if_neg hdiv]
    split_ifs <;> rfl
  rw [hstored]
  simp only [poke, Function.update_apply]

end Reads

end Machine

open Machine (Intact)

variable {e : Excused} {m m' : Machine} {α β : Type}

/-- Whenever the program leaves, at most what is excused has changed. -/
def Atomic (e : Excused) (p : Exec α) : Prop :=
  ∀ m, LeavesWith (Intact e) p m

theorem quiet_bind {p : Exec α} {f : α → Exec β} (hp : Keeps (Intact e) p)
    (hf : ∀ a, Keeps (Intact e) (f a)) : Keeps (Intact e) (p >>= f) :=
  keeps_bind (fun _ _ => id) Intact.trans hp hf

theorem atomic_of_quiet {p : Exec α} (h : Keeps (Intact e) p) : Atomic e p :=
  fun _ => h.leavesWith

theorem atomic_of_stays {p : Exec α} (h : Stays p) : Atomic e p :=
  fun _ => h.leavesWith

theorem atomic_bind {p : Exec α} {f : α → Exec β} (hp : Keeps (Intact e) p)
    (hf : ∀ a, Atomic e (f a)) : Atomic e (p >>= f) :=
  fun m => leavesWith_bind Intact.trans (hp m) fun a m' _ _ => hf a m'

theorem atomic_last {p : Exec α} {f : α → Exec β} (hp : Atomic e p)
    (hf : ∀ a, Stays (f a)) : Atomic e (p >>= f) :=
  fun m => (hp m).bind_stays hf

section Quiet

theorem quiet_gets (f : Machine → α) :
    Keeps (Intact e) (gets f : Exec α) :=
  keeps_gets Intact.refl f

theorem quiet_pure (a : α) : Keeps (Intact e) (return a : Exec α) :=
  keeps_pure Intact.refl a

theorem quiet_leaveIf (condition : Machine → Bool) (exit : Exit)
    {last : Machine → Machine} (hlast : ∀ m, Intact e m (last m)) :
    Keeps (Intact e) (leaveIf condition exit last) :=
  keeps_leaveIf Intact.refl hlast

theorem quiet_trapIf (condition : Machine → Bool) :
    Keeps (Intact e) (trapIf condition) :=
  quiet_leaveIf condition .trap Intact.refl

theorem quiet_illegalIf (condition : Bool) :
    Keeps (Intact e) (illegalIf condition) :=
  quiet_leaveIf _ .illOpc Intact.refl

theorem quiet_checkPc : Keeps (Intact e) checkPc :=
  quiet_leaveIf _ .fault fun _ =>
    ⟨rfl, fun _ => rfl, fun _ => rfl, rfl, rfl, fun _ _ _ => rfl⟩

theorem quiet_setPc (pc : Machine → Word) :
    Keeps (Intact e) (change fun m => m.setPc (pc m) : Exec Unit) :=
  fun _ => ⟨rfl, fun _ => rfl, fun _ => rfl, rfl, rfl, fun _ _ _ => rfl⟩

theorem quiet_spend (n : ℕ) : Keeps (Intact e) (spend n) :=
  fun _ => ⟨rfl, fun _ => rfl, fun _ => rfl, rfl, rfl, fun _ _ _ => rfl⟩

theorem intact_getByteCycles (addr : Word) (m : Machine) :
    Intact e m (m.getByteCycles addr).2 :=
  Intact.of_access (Machine.getByteCycles_effect addr m)
    fun _ hport _ => Machine.getByte_memory addr hport _

theorem intact_getWordCycles (addr : Word) (m : Machine) :
    Intact e m (m.getWordCycles addr).2 :=
  Intact.of_access (Machine.getWordCycles_effect addr m)
    fun _ hport _ => Machine.getWord_memory addr hport _

theorem quiet_getOpcode : Keeps (Intact e) getOpcode := by
  apply quiet_bind (quiet_trapIf _)
  intro _
  apply quiet_bind (keeps_act fun m => intact_getWordCycles m.pc m)
  intro opc
  apply quiet_bind (quiet_setPc _)
  intro _
  exact quiet_pure opc

theorem quiet_readByte (addr : Word) : Keeps (Intact e) (readByte addr) := by
  apply quiet_bind (keeps_act (intact_getByteCycles addr))
  intro val
  apply quiet_bind (quiet_trapIf _)
  intro _
  exact quiet_pure val

theorem quiet_readWord (addr : Word) : Keeps (Intact e) (readWord addr) := by
  apply quiet_bind (keeps_act (intact_getWordCycles addr))
  intro val
  apply quiet_bind (quiet_trapIf _)
  intro _
  exact quiet_pure val

theorem quiet_prefetch : Keeps (Intact e) prefetch :=
  keeps_act fun m => intact_getWordCycles m.pc m

theorem quiet_nextWord : Keeps (Intact e) nextWord := by
  apply quiet_bind quiet_prefetch
  intro val
  apply quiet_bind (quiet_setPc _)
  intro _
  exact quiet_pure val

end Quiet

section Stores

theorem atomic_writeByte (addr : Word) (val : Byte) :
    Atomic e (writeByte addr val) :=
  atomic_last (atomic_of_quiet (quiet_trapIf _)) fun _ => stays_change _

theorem atomic_writeWord (addr : Word) (val : Word) :
    Atomic e (writeWord addr val) :=
  atomic_last (atomic_of_quiet (quiet_trapIf _)) fun _ => stays_change _

theorem atomic_compute (illegal : Bool) (run : Machine → Machine) :
    Atomic e (compute illegal run) :=
  atomic_last (atomic_of_quiet (quiet_illegalIf illegal)) fun _ =>
    stays_change run

end Stores

section Moves

variable (opc : Word)

theorem atomic_moveByte (addr : Word) : Atomic e (Instr.moveByte opc addr) := by
  unfold Instr.moveByte
  split_ifs
  · apply atomic_bind (quiet_gets _)
    intro dest
    exact atomic_last (atomic_writeByte addr dest) fun _ => stays_change _
  · apply atomic_last (atomic_of_quiet (quiet_readByte addr))
    intro dest
    exact stays_bind (stays_change _) fun _ => stays_change _

theorem atomic_moveWord (addr : Word) : Atomic e (Instr.moveWord opc addr) := by
  unfold Instr.moveWord
  split_ifs
  · apply atomic_bind (quiet_gets _)
    intro dest
    exact atomic_last (atomic_writeWord addr dest) fun _ => stays_change _
  · apply atomic_last (atomic_of_quiet (quiet_readWord addr))
    intro dest
    apply stays_bind (stays_change _)
    intro _
    exact stays_bind (stays_change _) fun _ => stays_change _

theorem atomic_movBRI : Atomic e (Instr.movBRI opc) :=
  atomic_bind (quiet_gets _) (atomic_moveByte opc)

theorem atomic_movBRID : Atomic e (Instr.movBRID opc) := by
  apply atomic_bind quiet_nextWord
  intro _
  exact atomic_bind (quiet_gets _) (atomic_moveByte opc)

theorem atomic_movBRIP : Atomic e (Instr.movBRIP opc) := by
  apply atomic_bind (quiet_spend 2)
  intro _
  split_ifs
  · apply atomic_bind (quiet_gets _)
    intro addr
    apply atomic_bind (quiet_gets _)
    intro dest
    apply atomic_last (atomic_writeByte addr dest)
    intro _
    exact stays_bind (stays_change _) fun _ => stays_change _
  · apply atomic_bind (quiet_gets _)
    intro addr
    apply atomic_last (atomic_of_quiet (quiet_readByte addr))
    intro dest
    apply stays_bind (stays_change _)
    intro _
    exact stays_bind (stays_change _) fun _ => stays_change _

theorem atomic_movBFA8 : Atomic e (Instr.movBFA8 opc) := by
  apply atomic_last (atomic_of_quiet (quiet_readByte _))
  intro dest
  exact stays_bind (stays_change _) fun _ => stays_change _

theorem atomic_movBTA8 (hflags : e.flags) : Atomic e (Instr.movBTA8 opc) := by
  apply atomic_bind (quiet_gets _)
  intro dest
  apply atomic_bind (keeps_change fun m => Intact.of_flags hflags _ m)
  intro _
  exact atomic_writeByte _ dest

theorem atomic_movBA16 : Atomic e (Instr.movBA16 opc) := by
  apply atomic_bind (quiet_illegalIf _)
  intro _
  exact atomic_bind quiet_nextWord (atomic_moveByte opc)

theorem stays_setWord (dest : Word) : Stays (Instr.setWord opc dest) := by
  apply stays_bind (stays_change _)
  intro _
  exact stays_bind (stays_change _) fun _ => stays_change _

theorem atomic_movW : Atomic e (Instr.movW opc) := by
  apply atomic_bind (quiet_illegalIf _)
  intro _
  exact atomic_bind (quiet_gets _) fun dest =>
    atomic_of_stays (stays_setWord opc dest)

theorem atomic_movWI : Atomic e (Instr.movWI opc) := by
  apply atomic_bind (quiet_illegalIf _)
  intro _
  exact atomic_bind quiet_nextWord fun dest =>
    atomic_of_stays (stays_setWord opc dest)

theorem atomic_movWRI : Atomic e (Instr.movWRI opc) := by
  apply atomic_bind (quiet_illegalIf _)
  intro _
  exact atomic_bind (quiet_gets _) (atomic_moveWord opc)

theorem atomic_movWRID : Atomic e (Instr.movWRID opc) := by
  apply atomic_bind (quiet_illegalIf _)
  intro _
  apply atomic_bind quiet_nextWord
  intro _
  exact atomic_bind (quiet_gets _) (atomic_moveWord opc)

theorem atomic_movWRIP : Atomic e (Instr.movWRIP opc) := by
  apply atomic_bind (quiet_illegalIf _)
  intro _
  apply atomic_bind (quiet_spend 2)
  intro _
  split_ifs
  · apply atomic_bind (quiet_gets _)
    intro addr
    apply atomic_bind (quiet_gets _)
    intro dest
    apply atomic_last (atomic_writeWord addr dest)
    intro _
    exact stays_bind (stays_change _) fun _ => stays_change _
  · apply atomic_bind (quiet_gets _)
    intro addr
    apply atomic_last (atomic_of_quiet (quiet_readWord addr))
    intro dest
    apply stays_bind (stays_change _)
    intro _
    apply stays_bind (stays_change _)
    intro _
    exact stays_bind (stays_change _) fun _ => stays_change _

theorem atomic_movWA16 : Atomic e (Instr.movWA16 opc) := by
  apply atomic_bind (quiet_illegalIf _)
  intro _
  exact atomic_bind quiet_nextWord (atomic_moveWord opc)

end Moves

section Bits

variable {opc : Word}

/-- The operations that store their operand leave the flags alone. -/
theorem bitop_ccr {op : Instr.BitOp} (hop : Instr.bitop opc true = some op)
    (reg : BitVec 4 → Byte) (val ccr : Byte) :
    (op.run reg val ccr).2 = ccr := by
  unfold Instr.bitop at hop
  split at hop <;> cases hop <;> first | contradiction | rfl

theorem atomic_bitMemory (write indirect : Bool) (addr : Word) :
    Atomic e (Instr.bitMemory write indirect addr) := by
  apply atomic_bind (quiet_readByte addr)
  intro val
  apply atomic_bind quiet_getOpcode
  intro opc
  apply atomic_bind (quiet_illegalIf _)
  intro _
  cases hop : Instr.bitop opc write with
  | none => exact atomic_of_quiet (quiet_illegalIf true)
  | some op =>
      apply atomic_bind (quiet_illegalIf _)
      intro _
      cases write with
      | true =>
          intro m
          apply leavesWith_gets
          have hccr := bitop_ccr hop m.reg val m.ccr
          have hsame : m.setCcr (op.run m.reg val m.ccr).2 = m := by
            rw [hccr]
            rfl
          apply leavesWith_bind Intact.trans
          · change Intact e m (m.setCcr (op.run m.reg val m.ccr).2)
            rw [hsame]
            exact Intact.refl m
          · intro _ m' _ _
            exact atomic_writeByte addr _ m'
      | false =>
          apply atomic_bind (quiet_gets _)
          intro result
          exact atomic_of_stays
            (stays_bind (stays_change _) fun _ => stays_pure ())

theorem atomic_bitInd : Atomic e (Instr.bitInd opc) := by
  apply atomic_bind (quiet_illegalIf _)
  intro _
  exact atomic_bind (quiet_gets _) fun addr => atomic_bitMemory _ true addr

end Bits

section Jumps

variable (opc : Word)

theorem atomic_branch (taken : Byte → Bool) :
    Atomic e (Instr.branch opc taken) := by
  apply atomic_bind quiet_prefetch
  intro _
  have hjump : Keeps (Intact e) (change fun m =>
      if taken m.ccr then m.setPc (m.pc + displacement opc) else m :
        Exec Unit) := by
    apply keeps_change
    intro m
    split_ifs
    · exact quiet_setPc (fun m => m.pc + displacement opc) m
    · exact Intact.refl m
  apply atomic_bind hjump
  intro _
  exact atomic_of_quiet quiet_checkPc

theorem atomic_jump (pc : Word) :
    Atomic e (change (Machine.setPc pc) >>= fun _ => checkPc) :=
  atomic_bind (quiet_setPc fun _ => pc) fun _ => atomic_of_quiet quiet_checkPc

theorem atomic_jmpRI : Atomic e (Instr.jmpRI opc) := by
  apply atomic_bind (quiet_illegalIf _)
  intro _
  apply atomic_bind quiet_prefetch
  intro _
  apply atomic_bind (quiet_setPc _)
  intro _
  exact atomic_of_quiet quiet_checkPc

theorem atomic_jmpA16 : Atomic e (Instr.jmpA16 opc) := by
  apply atomic_bind (quiet_illegalIf _)
  intro _
  apply atomic_bind (quiet_spend 2)
  intro _
  exact atomic_bind quiet_prefetch atomic_jump

theorem atomic_jmpAA8 : Atomic e (Instr.jmpAA8 opc) := by
  apply atomic_bind quiet_prefetch
  intro _
  apply atomic_bind (quiet_spend 2)
  intro _
  exact atomic_bind (quiet_readWord _) atomic_jump

theorem quiet_endFrame (hframes : e.frames) (fp : Word) :
    Keeps (Intact e) (change (Machine.endFrame fp) : Exec Unit) :=
  fun _ => ⟨rfl, fun _ => rfl, fun hnot => absurd hframes hnot, rfl, rfl,
    fun _ _ _ => rfl⟩

/-- The end of a return. -/
theorem atomic_leave (addr sp : Word) :
    Atomic e (readWord addr >>= fun pc => change (Machine.setPc pc) >>= fun _ =>
      checkPc >>= fun _ => change fun m => m.setReg16 7 sp : Exec Unit) := by
  apply atomic_bind (quiet_readWord addr)
  intro pc
  apply atomic_bind (quiet_setPc fun _ => pc)
  intro _
  exact atomic_last (atomic_of_quiet quiet_checkPc) fun _ => stays_change _

theorem atomic_rtS (hframes : e.frames) : Atomic e Instr.rtS := by
  apply atomic_bind quiet_prefetch
  intro _
  apply atomic_bind (quiet_spend 2)
  intro _
  apply atomic_bind (quiet_gets _)
  intro fp
  apply atomic_bind (quiet_endFrame hframes fp)
  intro _
  exact atomic_leave fp (fp + 2)

theorem atomic_rtE (hflags : e.flags) (hframes : e.frames) :
    Atomic e Instr.rtE := by
  apply atomic_bind quiet_prefetch
  intro _
  apply atomic_bind (quiet_spend 2)
  intro _
  apply atomic_bind (quiet_gets _)
  intro fp
  apply atomic_bind (quiet_endFrame hframes (fp + 2))
  intro _
  apply atomic_bind (quiet_readWord fp)
  intro ccrword
  apply atomic_bind (keeps_change fun m => Intact.of_flags hflags _ m)
  intro _
  exact atomic_leave (fp + 2) (fp + 4)

end Jumps

section Calls

/-- The word below the stack is outside the peripherals, and its bytes are
excused. -/
structure Pushes (e : Excused) (m : Machine) : Prop where
  plain : m.isDiv (m.reg16 7 - 2).toNat = false
  high : e.bytes (m.reg16 7 - 2).toNat
  low : e.bytes ((m.reg16 7 - 2).toNat + 1)

theorem Pushes.mono (h : Pushes e m) (hintact : Intact e m m') :
    Pushes e m' := by
  have hsp : m'.reg16 7 = m.reg16 7 := by
    unfold Machine.reg16
    rw [hintact.reg]
  have hdiv (addr : ℕ) : m'.isDiv addr = m.isDiv addr := by
    unfold Machine.isDiv
    rw [hintact.memtype]
  constructor <;> rw [hsp]
  · rw [hdiv]
    exact h.plain
  · exact h.high
  · exact h.low

theorem Pushes.intact (h : Pushes e m) (val : Word) :
    Intact e m (m.setWordCycles (m.reg16 7 - 2) val) := by
  apply Intact.of_access (Machine.setWordCycles_effect h.plain val)
  intro addr _ hbyte
  refine (Machine.setWord_memory_plain (by exact h.plain) val addr).trans ?_
  have hhigh : addr ≠ (m.reg16 7 - 2).toNat := by
    rintro rfl
    exact hbyte h.high
  have hlow : addr ≠ (m.reg16 7 - 2).toNat + 1 := by
    rintro rfl
    exact hbyte h.low
  rw [if_neg hlow, if_neg hhigh]
  rfl

theorem Pushes.writeWord (h : Pushes e m) (val : Word) :
    Intact e m (writeWord (m.reg16 7 - 2) val m).2 := by
  unfold BrickEmu.writeWord
  by_cases htrap : m.wordTrap MEMTYPE_WRITETRAP (m.reg16 7 - 2) = true
  · rw [trapIf, leaveIf_bind_pos htrap]
    exact Intact.refl m
  · have htrap : m.wordTrap MEMTYPE_WRITETRAP (m.reg16 7 - 2) = false := by
      simpa using htrap
    rw [trapIf, leaveIf_bind_neg htrap]
    exact h.intact val

/-- The target is tested behind the push. -/
theorem atomic_callTarget {target : Exec Word}
    (htarget : Keeps (Intact e) target) (sp : Word) :
    Atomic e (target >>= fun pc => change (Machine.setPc pc) >>= fun _ =>
      checkPc >>= fun _ => change (Machine.beginCall sp) >>= fun _ =>
        change fun m => m.setReg16 7 sp : Exec Unit) := by
  apply atomic_bind htarget
  intro pc
  apply atomic_bind (quiet_setPc fun _ => pc)
  intro _
  apply atomic_last (atomic_of_quiet quiet_checkPc)
  intro _
  exact stays_bind (stays_change _) fun _ => stays_change _

theorem leavesWith_call {target : Exec Word} (h : Pushes e m)
    (htarget : Keeps (Intact e) target) :
    LeavesWith (Intact e) (call target) m := by
  apply leavesWith_gets
  apply leavesWith_gets
  apply leavesWith_bind Intact.trans (h.writeWord m.pc)
  intro _ m' _ _
  exact atomic_callTarget htarget _ m'

theorem leavesWith_jsrRI (opc : Word) (h : Pushes e m) :
    LeavesWith (Intact e) (Instr.jsrRI opc) m := by
  apply leavesWith_bind Intact.trans (quiet_illegalIf _ m)
  intro _ m₁ _ h₁
  apply leavesWith_bind Intact.trans (quiet_prefetch m₁)
  intro _ m₂ _ h₂
  exact leavesWith_call ((h.mono h₁).mono h₂) (quiet_gets _)

theorem leavesWith_jsrA16 (opc : Word) (h : Pushes e m) :
    LeavesWith (Intact e) (Instr.jsrA16 opc) m := by
  apply leavesWith_bind Intact.trans (quiet_illegalIf _ m)
  intro _ m₁ _ h₁
  apply leavesWith_bind Intact.trans (quiet_nextWord m₁)
  intro addr m₂ _ h₂
  apply leavesWith_bind Intact.trans (quiet_spend 2 m₂)
  intro _ m₃ _ h₃
  exact leavesWith_call (((h.mono h₁).mono h₂).mono h₃) (quiet_pure addr)

theorem leavesWith_shortCall {target : Exec Word} (h : Pushes e m)
    (htarget : Keeps (Intact e) target) :
    LeavesWith (Intact e) (prefetch >>= fun _ => call target) m := by
  apply leavesWith_bind Intact.trans (quiet_prefetch m)
  intro _ m' _ hintact
  exact leavesWith_call (h.mono hintact) htarget

end Calls

namespace Mnemonic

def isCall (mnemonic : Mnemonic) : Bool :=
  mnemonic ∈ [bSr, jsrRI, jsrA16, jsrAA8]

def flagsFirst (mnemonic : Mnemonic) : Bool :=
  mnemonic ∈ [movBTA8, rtE]

def isReturn (mnemonic : Mnemonic) : Bool :=
  mnemonic ∈ [rtS, rtE]

end Mnemonic

section Main

theorem leavesWith_body (opc : Word) {mnemonic : Mnemonic}
    (hflags : mnemonic.flagsFirst → e.flags)
    (hframes : mnemonic.isReturn → e.frames)
    (hpushes : mnemonic.isCall → Pushes e m) :
    LeavesWith (Intact e) (mnemonic.body opc) m := by
  cases mnemonic with
  | nop =>
      apply Stays.leavesWith
      simp only [Mnemonic.body, Instr.nop]
      split_ifs
      · exact stays_bind (stays_act _) fun _ => stays_pure ()
      · exact stays_pure ()
  | sleep | trap => exact (stays_change _).leavesWith
  | stC | ldC | orC | xorC | andC | ldCI | addB | addW | inc | addS | movB
  | addX | daa | shL | shR | rotL | rotR | or | xor | and | subB | subW | dec
  | subS | cmpB | cmpW | subX | das | addBI | addXI | cmpBI | subXI | orI
  | xorI | andI | movBI | mulXU | divXU | not => exact atomic_compute _ _ m
  | bra | bhi | blo | bcc | bcs | bne | beq | bvc | bvs | bpl | bmi | bge
  | blt | bgt | ble =>
      simp only [Mnemonic.body, Instr.bra, Instr.bhi, Instr.blo, Instr.bcc,
        Instr.bcs, Instr.bne, Instr.beq, Instr.bvc, Instr.bvs, Instr.bpl,
        Instr.bmi, Instr.bge, Instr.blt, Instr.bgt, Instr.ble]
      exact atomic_branch opc _ m
  | brn => exact (stays_bind (stays_act _) fun _ => stays_pure ()).leavesWith
  | rtS => exact atomic_rtS (hframes rfl) m
  | rtE => exact atomic_rtE (hflags rfl) (hframes rfl) m
  | bSr => exact leavesWith_shortCall (hpushes rfl) (quiet_gets _)
  | jmpRI => exact atomic_jmpRI opc m
  | jmpA16 => exact atomic_jmpA16 opc m
  | jmpAA8 => exact atomic_jmpAA8 opc m
  | jsrRI => exact leavesWith_jsrRI opc (hpushes rfl)
  | jsrA16 => exact leavesWith_jsrA16 opc (hpushes rfl)
  | jsrAA8 => exact leavesWith_shortCall (hpushes rfl) (quiet_readWord _)
  | bSet | bNot | bClr | bTst | bSt | bSetI | bNotI | bClrI | bTstI | bOr
  | bXor | bAnd | bLd => exact atomic_compute _ _ m
  | movBRI => exact atomic_movBRI opc m
  | movW => exact atomic_movW opc m
  | movWI => exact atomic_movWI opc m
  | movWRI => exact atomic_movWRI opc m
  | movBA16 => exact atomic_movBA16 opc m
  | movWA16 => exact atomic_movWA16 opc m
  | movBRIP => exact atomic_movBRIP opc m
  | movWRIP => exact atomic_movWRIP opc m
  | movBRID => exact atomic_movBRID opc m
  | movWRID => exact atomic_movWRID opc m
  | movBFA8 => exact atomic_movBFA8 opc m
  | movBTA8 => exact atomic_movBTA8 opc (hflags rfl) m
  | eepMov =>
      apply Stays.leavesWith
      apply stays_bind (stays_change _)
      intro _
      exact stays_bind (stays_act _) fun _ => stays_change _
  | bitInd => exact atomic_bitInd m
  | bitAbs => exact atomic_bitMemory _ false _ m

namespace Machine

/-- The instruction at the program counter. -/
def instruction (m : Machine) : Option Mnemonic :=
  Mnemonic.decode ((m.getWordCycles m.pc).1 >>> 8).toNat

/-- The word below the stack. -/
def Pushed (m : Machine) (addr : ℕ) : Prop :=
  addr = (m.reg16 7 - 2).toNat ∨ addr = (m.reg16 7 - 2).toNat + 1

/-- What the instruction does in front of its last test. -/
def excused (m : Machine) : Excused where
  flags := ∃ mnemonic ∈ m.instruction, mnemonic.flagsFirst
  frames := ∃ mnemonic ∈ m.instruction, mnemonic.isReturn
  bytes addr := m.Pushed addr ∧ ∃ mnemonic ∈ m.instruction, mnemonic.isCall

/-- The machine stands in front of the instruction again, to be executed once
more. -/
structure Untouched (m m' : Machine) : Prop where
  pc : m'.pc = m.pc
  reg : m'.reg = m.reg
  ccr : ¬m.excused.flags → m'.ccr = m.ccr
  frames : ¬m.excused.frames → m'.frames = m.frames
  memtype : ∀ addr ≠ m.pc.toNat, m'.memtype addr = m.memtype addr
  memory : ∀ addr, Port.ofAddr addr = none → ¬m.excused.bytes addr →
    m'.memory addr = m.memory addr

theorem Intact.untouched (h : Intact m.excused m m') (exit : Exit) :
    m.Untouched (m'.atLabel m.pc exit) := by
  have hmemtype (addr : ℕ) : m'.memtype addr = m.memtype addr :=
    congrFun h.memtype addr
  cases exit with
  | trap =>
      unfold atLabel
      dsimp only
      split_ifs
      · refine ⟨rfl, h.reg, h.ccr, h.frames, ?_, h.memory⟩
        intro addr haddr
        exact (Function.update_of_ne haddr ..).trans (hmemtype addr)
      · exact ⟨rfl, h.reg, h.ccr, h.frames, fun addr _ => hmemtype addr,
          h.memory⟩
  | fault | illOpc =>
      exact ⟨rfl, h.reg, h.ccr, h.frames, fun addr _ => hmemtype addr,
        h.memory⟩

end Machine

theorem getOpcode_ok {opc : Word} (h : getOpcode m = (.ok opc, m')) :
    opc = (m.getWordCycles m.pc).1 := by
  by_cases htrap : m.wordTrap MEMTYPE_BREAKPOINT m.pc = true
  · rw [getOpcode, trapIf, leaveIf_bind_pos (by exact htrap)] at h
    cases h
  · have htrap : m.wordTrap MEMTYPE_BREAKPOINT m.pc = false := by
      simpa using htrap
    rw [getOpcode, trapIf, leaveIf_bind_neg (by exact htrap)] at h
    cases h
    rfl

theorem leavesWith_executeInstruction
    (hstack : ∀ mnemonic ∈ m.instruction, mnemonic.isCall →
      m.isDiv (m.reg16 7 - 2).toNat = false) :
    LeavesWith (Intact m.excused) executeInstruction m := by
  apply leavesWith_bind Intact.trans (quiet_getOpcode m)
  intro opc m' hopc hintact
  have hinstruction : m.instruction = Mnemonic.decode (opc >>> 8).toNat := by
    rw [getOpcode_ok hopc]
    rfl
  rw [← hinstruction]
  cases hdecode : m.instruction with
  | none =>
      exact (quiet_bind (quiet_illegalIf true) fun _ =>
        quiet_pure false).leavesWith
  | some mnemonic =>
      have hmem : mnemonic ∈ m.instruction := hdecode
      suffices hbody : LeavesWith (Intact m.excused)
          (mnemonic.body opc) m' from
        hbody.bind_stays fun _ => stays_pure _
      apply leavesWith_body
      · exact fun hflags => ⟨mnemonic, hmem, hflags⟩
      · exact fun hreturn => ⟨mnemonic, hmem, hreturn⟩
      · intro hcall
        have hpushes : Pushes m.excused m :=
          ⟨hstack mnemonic hmem hcall, ⟨.inl rfl, mnemonic, hmem, hcall⟩,
            ⟨.inr rfl, mnemonic, hmem, hcall⟩⟩
        exact hpushes.mono hintact

/-- An instruction that leaves can be executed again. -/
theorem leaves_untouched {exit : Exit}
    (hleaves : executeInstruction m = (.error exit, m'))
    (hstack : ∀ mnemonic ∈ m.instruction, mnemonic.isCall →
      m.isDiv (m.reg16 7 - 2).toNat = false) :
    m.Untouched (m'.atLabel m.pc exit) :=
  (leavesWith_executeInstruction hstack exit m' hleaves).untouched exit

/-- `MOV.B R0L,@-R1` into the ROM. -/
def overwriting : Machine :=
  { Machine.powerOn (fun _ => none) [] [] [] with
    pc := 0xfe00
    reg := fun nr => if nr = 1 then 0x10 else if nr = 9 then 0x01 else 0x5a
    memory := fun addr =>
      if addr = 0xfe00 then 0x6c else if addr = 0xfe01 then 0x98 else 0 }

theorem leaves_untouched_overwriting :
    ∃ m', executeInstruction overwriting = (.error .trap, m') ∧
      overwriting.Untouched (m'.atLabel overwriting.pc .trap) := by
  have hleaves : executeInstruction overwriting =
      (.error .trap, (executeInstruction overwriting).2) := rfl
  have hinstruction : overwriting.instruction = some .movBRIP := by
    decide
  refine ⟨_, hleaves, leaves_untouched hleaves ?_⟩
  intro mnemonic hmem hcall
  rw [hinstruction] at hmem
  cases hmem
  cases hcall

end Main

end BrickEmu
