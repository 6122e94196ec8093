import BrickEmu.AsmFlags
import BrickEmu.MachineEffects

/-!
# When the assembler core agrees with the C code

The core agrees with the C code as long as it does not charge an instruction
by the speed of the wrong memory, checks the addresses that the C code
checks, and calls the functions of the ports with the same effect although
the cycles of the instruction are not counted yet.  The condition is stated
for each instruction on the machine before it.
-/

namespace BrickEmu

open Program

/-- The state that is compared. -/
structure SameCpu (m m' : Machine) : Prop where
  reg : m.reg = m'.reg
  pc : m.pc = m'.pc
  ccr : m.ccr = m'.ccr
  memory : m.memory = m'.memory
  cycles : m.cycles = m'.cycles
  dbTrap : m.dbTrap = m'.dbTrap
  memtype : m.memtype = m'.memtype

/-- An instruction that the core executes itself has the result it has in the
C code. -/
def Machine.AsmAgrees (m : Machine) : Prop :=
  m.pc &&& 1 = 0 → ∀ m', m.afterAsm = some m' → SameCpu m' m.afterC

namespace Machine

variable (m : Machine)

/-- The word behind the opcode is plain memory of the same speed. -/
def PlainPrefetch : Prop :=
  m.isDiv (m.pc + 2).toNat = false ∧
    m.slow (m.pc + 2).toNat = m.slow m.pc.toNat

/-- The second word is in front of the end of the memory and has the speed of
the first. -/
def PlainOperand : Prop :=
  m.pc ≠ 0xfffe ∧ m.slow (m.pc + 2).toNat = m.slow m.pc.toNat

def GoodTarget (target : Word) : Prop :=
  target &&& 1 = 0 ∧ m.isDiv target.toNat = false

/-- The `get` function of a port does not notice that the cycles of the
instruction up to the access are counted later. -/
def SteadyPort (addr : Word) (cycles : ℕ) : Prop :=
  ∀ port, Port.ofAddr addr.toNat = some port →
    ((m.addCycles cycles).portGet port).map Prod.fst =
      (m.portGet port).map Prod.fst

/-- The `set` function of a port does not come upon commands of the GUI or
the debugger. -/
def QuietPort (addr : Word) : Prop :=
  ∀ port, Port.ofAddr addr.toNat = some port →
    port = .t16 .TCR ∨ port = .port6 → m.arrivals.headD [] = []

end Machine

namespace Asm

variable (opc : Word) (m : Machine)

/-- The opcode has no bits that make it illegal. -/
def Legal (mask : Byte) : Prop :=
  opcval opc &&& mask = 0

/-- The epilogue of a branch charges the opcode by the speed of the memory at
its base. -/
def BranchSafe (taken : Byte → Bool) : Prop :=
  let base := if taken m.ccr then (branchBase opc m.pc).toNat else m.pc.toNat
  let target := m.pc + 2 + if taken m.ccr then displacement opc else 0
  m.isDiv (m.pc + 2).toNat = false ∧ m.GoodTarget target ∧
    m.slow (m.pc + 2).toNat = m.slow base

/-- The length of a call is charged by the speed of the memory it returns
to. -/
def CallSafe (target : Word) (length : ℕ) : Prop :=
  m.isDiv target.toNat = false ∧ 2 ≤ (m.reg16 7).toNat ∧
    m.slow (m.pc.toNat + length) = m.slow m.pc.toNat

/-- Both words on the stack are charged by the speed of the first, the opcode
and the word behind it by the speed of the opcode. -/
def ReturnSafe (rte : Bool) : Prop :=
  let fp := m.reg16 7
  m.isDiv (m.pc + 2).toNat = false ∧ fp &&& 1 = 0 ∧
    m.GoodTarget (m.peekWord (if rte then fp.toNat + 2 else fp.toNat)) ∧
      if rte then
        fp ≠ 0xfffe ∧ m.slow (m.pc + 2).toNat + m.slow (fp + 2).toNat =
          m.slow m.pc.toNat + m.slow fp.toNat
      else m.slow (m.pc + 2).toNat = m.slow m.pc.toNat

/-- A load with increment into its own address register ends with the
address, and is charged by the speed of the memory behind. -/
def LoadIncSafe (size : ℕ) (own : Prop) : Prop :=
  let addr := (m.reg16 (rs16 opc)).toNat
  Instr.isStore opc = false → ¬own ∧ m.slow (addr + size) = m.slow addr

/-- The core does not notice odd addresses of words. -/
def LoadEven (addr : Word) : Prop :=
  Instr.isStore opc = false → addr &&& 1 = 0

/-- Above the first register a port may be read through its function. -/
def PortSafe (addr : Word) (cycles : ℕ) : Prop :=
  m.isDiv addr.toNat = true → 0xff88 < addr.toNat ∧ m.SteadyPort addr cycles

/-- The second opcode of a bit instruction is one that writes, without bits
that make it illegal. -/
def BitopLegal (bitop : Word) : Prop :=
  opcval bitop &&& 0x0f = 0 ∧
    ∃ op, Instr.bitop bitop true = some op ∧ op.illegal = false

/-- The cycles of a bit instruction until it reads its operand. -/
def bitCycles (addr : Word) : ℕ :=
  m.wordCycles m.pc + m.byteCycles addr

def BitSafe (addr : Word) : Prop :=
  m.PlainOperand ∧ m.wordTrap MEMTYPE_BREAKPOINT (m.pc + 2) = false ∧
    BitopLegal (m.peekWord (m.pc + 2).toNat) ∧
    m.marked 0x2c addr.toNat = false ∧
    PortSafe m addr (bitCycles m addr) ∧ m.QuietPort addr ∧
    addr.toNat ≠ m.pc.toNat + 3

/-- The condition for one instruction. -/
def Safe : Mnemonic → Prop
  | .nop => Legal opc 0xff ∧ m.isDiv (m.pc + 2).toNat = false
  | .stC | .inc | .dec => Legal opc 0xf0
  | .addW | .subW | .cmpW | .movW => Legal opc 0x88
  | .addS | .subS => Legal opc 0x78
  | .bSetI | .bNotI | .bClrI | .bTstI => Legal opc 0x80
  | .shL => Legal opc 0x70
  | .bra => BranchSafe opc m fun _ => true
  | .bhi => BranchSafe opc m fun ccr => ccr &&& 0x5 = 0
  | .blo => BranchSafe opc m fun ccr => ccr &&& 0x5 ≠ 0
  | .bcc => BranchSafe opc m fun ccr => ccr &&& 0x1 = 0
  | .bcs => BranchSafe opc m fun ccr => ccr &&& 0x1 ≠ 0
  | .bne => BranchSafe opc m fun ccr => ccr &&& 0x4 = 0
  | .beq => BranchSafe opc m fun ccr => ccr &&& 0x4 ≠ 0
  | .bvc => BranchSafe opc m fun ccr => ccr &&& 0x2 = 0
  | .bvs => BranchSafe opc m fun ccr => ccr &&& 0x2 ≠ 0
  | .bpl => BranchSafe opc m fun ccr => ccr &&& 0x8 = 0
  | .bmi => BranchSafe opc m fun ccr => ccr &&& 0x8 ≠ 0
  | .bge => BranchSafe opc m fun ccr => ((ccr >>> 2) ^^^ ccr) &&& 0x2 = 0
  | .blt => BranchSafe opc m fun ccr => ((ccr >>> 2) ^^^ ccr) &&& 0x2 ≠ 0
  | .bgt =>
      BranchSafe opc m fun ccr => (((ccr >>> 2) &&& 0x2) ^^^ ccr) &&& 0x6 = 0
  | .ble =>
      BranchSafe opc m fun ccr => (((ccr >>> 2) &&& 0x2) ^^^ ccr) &&& 0x6 ≠ 0
  | .jmpRI =>
      Legal opc 0x8f ∧ m.PlainPrefetch ∧ m.GoodTarget (m.reg16 (rs16 opc))
  | .jmpA16 =>
      Legal opc 0xff ∧ m.PlainOperand ∧
        m.GoodTarget (m.peekWord (m.pc + 2).toNat)
  | .bSr => m.PlainPrefetch ∧ CallSafe m (m.pc + 2 + displacement opc) 2
  | .jsrRI =>
      Legal opc 0x8f ∧ m.PlainPrefetch ∧ CallSafe m (m.reg16 (rs16 opc)) 2
  | .jsrA16 =>
      Legal opc 0xff ∧ m.PlainOperand ∧
        CallSafe m (m.peekWord (m.pc + 2).toNat) 4
  | .rtS => ReturnSafe m false
  | .rtE => ReturnSafe m true
  | .movBRID => m.PlainOperand
  | .movBRIP => LoadIncSafe opc m 1 ((rd opc).setWidth 3 = rs16 opc)
  | .movBA16 => Legal opc 0x70 ∧ m.PlainOperand
  | .movBFA8 =>
      m.marked 0x08 (displacement opc).toNat = false ∧
        PortSafe m (displacement opc) (bitCycles m (displacement opc))
  | .movBTA8 =>
      (m.isDiv (displacement opc).toNat = true →
        0xff88 < (displacement opc).toNat) ∧ m.QuietPort (displacement opc)
  | .movWI => Legal opc 0xf8 ∧ m.PlainOperand
  | .movWRI => Legal opc 0x08 ∧ LoadEven opc (m.reg16 (rs16 opc))
  | .movWRID =>
      Legal opc 0x08 ∧ m.PlainOperand ∧
        LoadEven opc (m.peekWord (m.pc + 2).toNat + m.reg16 (rs16 opc))
  | .movWRIP =>
      Legal opc 0x08 ∧ LoadEven opc (m.reg16 (rs16 opc)) ∧
        LoadIncSafe opc m 2 (rd16 opc = rs16 opc)
  | .movWA16 =>
      Legal opc 0x78 ∧ m.PlainOperand ∧
        LoadEven opc (m.peekWord (m.pc + 2).toNat)
  | .bitInd =>
      opc.getLsbD 8 = true →
        Legal opc 0x8f ∧ BitSafe m (m.reg16 (rs16 opc))
  | .bitAbs => opc.getLsbD 8 = true → BitSafe m (displacement opc)
  | .brn | .trap => False
  | _ => True

end Asm

/-- The condition under which the core agrees with the C code. -/
def Machine.AsmSafe (m : Machine) : Prop :=
  m.marked MEMTYPE_BREAKPOINT (m.pc.toNat + 1) = false ∧
    ∃ mnemonic,
      Mnemonic.decode (m.peekWord m.pc.toNat >>> 8).toNat = some mnemonic ∧
        Asm.Safe (m.peekWord m.pc.toNat) m mnemonic

section Matches

/-- The core has handed the instruction back, or has done what the C code
does. -/
def Matches (asm : Except AsmExit Unit × Machine)
    (c : Except Exit Unit × Machine) : Prop :=
  match asm with
  | (.ok (), m) => ∃ m', c = (.ok (), m') ∧ SameCpu m m'
  | (.error .cleanUp, _) => True
  | (.error _, _) => False

variable {m : Machine} {c : Except Exit Unit × Machine}

theorem matches_cleanUpIf {condition : Machine → Bool} {f : Unit → Asm Unit}
    (h : condition m = false → Matches (f () m) c) :
    Matches ((Asm.cleanUpIf condition >>= f) m) c := by
  by_cases hcond : condition m = true
  · rw [Asm.cleanUpIf, leaveIf_bind_pos hcond]
    trivial
  · have hcond : condition m = false := by simpa using hcond
    rw [Asm.cleanUpIf, leaveIf_bind_neg hcond]
    exact h hcond

/-- An access that is handed back for some types of memory. -/
theorem matches_guarded {α : Type} {condition : Machine → Bool}
    {p : Unit → Asm α} {f : α → Asm Unit}
    (h : condition m = false → Matches ((p () >>= f) m) c) :
    Matches (((Asm.cleanUpIf condition >>= p) >>= f) m) c := by
  by_cases hcond : condition m = true
  · have hback : (Asm.cleanUpIf condition >>= p) m = (.error .cleanUp, m) :=
      leaveIf_bind_pos hcond p
    rw [bind_error hback]
    trivial
  · have hcond : condition m = false := by simpa using hcond
    have hpass : (Asm.cleanUpIf condition >>= p) m = p () m :=
      leaveIf_bind_neg hcond p
    rw [bind_apply, hpass]
    exact h hcond

theorem unalignedIf_bind {α : Type} {condition : Machine → Bool}
    {f : Unit → Asm α} (h : condition m = false) :
    (Asm.unalignedIf condition >>= f) m = f () m :=
  leaveIf_bind_neg h f

theorem illOpc_bind {α : Type} {opc : Word} {mask : Byte} {f : Unit → Asm α}
    (hlegal : Asm.Legal opc mask) :
    (Asm.illOpc opc mask >>= f) m = f () m := by
  have hzero : opcval opc &&& mask = 0 := hlegal
  exact leaveIf_bind_neg (by simp [hzero]) f

theorem illegalIf_bind {α : Type} {illegal : Bool} {f : Unit → Exec α}
    (h : illegal = false) : (illegalIf illegal >>= f) m = f () m :=
  leaveIf_bind_neg h f

theorem trapIf_bind {α : Type} {condition : Machine → Bool}
    {f : Unit → Exec α} (h : condition m = false) :
    (trapIf condition >>= f) m = f () m :=
  leaveIf_bind_neg h f

end Matches

section Accesses

namespace Machine

variable {m : Machine}

theorem marked_eq_false {mask : Byte} {addr : ℕ} :
    m.marked mask addr = false ↔ m.memtype addr &&& mask = 0 := by
  simp [marked]

/-- A test of more types covers one of fewer. -/
theorem marked_mono {mask more : Byte} {addr : ℕ}
    (hmask : more &&& mask = mask) (h : m.marked more addr = false) :
    m.marked mask addr = false := by
  rw [marked_eq_false] at h ⊢
  rw [← hmask, ← BitVec.and_assoc, h]
  exact BitVec.zero_and

theorem isDiv_of_marked {more : Byte} {addr : ℕ}
    (hmask : more &&& MEMTYPE_DIV = MEMTYPE_DIV)
    (h : m.marked more addr = false) : m.isDiv addr = false :=
  marked_mono hmask h

theorem wordTrap_eq (mask : Byte) (addr : Word) (m : Machine) :
    m.wordTrap mask addr = m.wordMarked mask addr.toNat := by
  have hzero : (m.memtype addr.toNat ||| m.memtype (addr.toNat + 1)) &&& mask
      = 0 ↔ m.memtype addr.toNat &&& mask = 0 ∧
        m.memtype (addr.toNat + 1) &&& mask = 0 := by
    rw [BitVec.and_comm, BitVec.and_or_distrib_left, BitVec.and_comm,
      BitVec.and_comm mask]
    exact BitVec.or_eq_zero_iff
  simp only [wordTrap, wordMarked, marked, ne_eq, hzero, not_and_or,
    Bool.decide_or]

theorem slow_cases (addr : ℕ) (m : Machine) :
    m.slow addr = if (m.memtype addr).getLsbD 6 then 0 else 1 := by
  have hmask : MEMTYPE_FAST = BitVec.twoPow 8 6 := rfl
  rw [slow, marked, and_mask _ 6 hmask]
  cases (m.memtype addr).getLsbD 6 <;> rfl

theorem byteCycles_eq (addr : Word) (m : Machine) :
    m.byteCycles addr = 2 + m.slow addr.toNat := by
  have hmask : MEMTYPE_FAST = BitVec.twoPow 8 6 := rfl
  rw [byteCycles, slow_cases, and_mask _ 6 hmask, BitVec.getLsbD_not]
  cases (m.memtype addr.toNat).getLsbD 6 <;> rfl

theorem wordCycles_eq (addr : Word) (m : Machine) :
    m.wordCycles addr = 2 + 4 * m.slow addr.toNat := by
  have hmask : MEMTYPE_FAST = BitVec.twoPow 8 6 := rfl
  rw [wordCycles, slow_cases, and_mask _ 6 hmask, BitVec.getLsbD_not]
  cases (m.memtype addr.toNat).getLsbD 6 <;> rfl

theorem getWordCycles_plain {addr : Word} (heven : addr &&& 1 = 0)
    (hplain : m.isDiv addr.toNat = false) :
    m.getWordCycles addr =
      (m.peekWord addr.toNat, m.addCycles (m.wordCycles addr)) := by
  have hplain' : (m.addCycles (m.wordCycles addr)).isDiv addr.toNat = false :=
    hplain
  rw [getWordCycles, getWord, if_pos ⟨heven, by simp [hplain']⟩]
  rfl

end Machine

variable {m : Machine} {addr : Word}

theorem readByte_plain (h : m.marked 0x88 addr.toNat = false) :
    readByte addr m =
      (.ok (m.memory addr.toNat), m.addCycles (m.byteCycles addr)) := by
  have hplain : (m.addCycles (m.byteCycles addr)).isDiv addr.toNat = false :=
    Machine.isDiv_of_marked rfl h
  have hget : m.getByteCycles addr =
      (m.memory addr.toNat, m.addCycles (m.byteCycles addr)) := by
    rw [Machine.getByteCycles, Machine.getByte, if_neg (by simp [hplain])]
    rfl
  rw [readByte, act_bind, hget]
  exact trapIf_bind (Machine.marked_mono rfl h)

theorem readWord_plain (heven : addr &&& 1 = 0)
    (h : m.wordMarked 0x88 addr.toNat = false) :
    readWord addr m =
      (.ok (m.peekWord addr.toNat), m.addCycles (m.wordCycles addr)) := by
  obtain ⟨hfirst, hsecond⟩ := Bool.or_eq_false_iff.mp h
  rw [readWord, act_bind, Machine.getWordCycles_plain heven
    (Machine.isDiv_of_marked rfl hfirst)]
  apply trapIf_bind
  rw [Machine.wordTrap_eq]
  exact Bool.or_eq_false_iff.mpr
    ⟨Machine.marked_mono rfl hfirst, Machine.marked_mono rfl hsecond⟩

theorem setByte_plain (h : m.marked 0xa0 addr.toNat = false) (val : Byte) :
    m.setByte addr val = m.poke addr.toNat val := by
  have hmotor : m.marked MEMTYPE_MOTOR addr.toNat = false :=
    Machine.marked_mono rfl h
  have hdiv : m.marked MEMTYPE_DIV addr.toNat = false :=
    Machine.marked_mono rfl h
  rw [Machine.marked_eq_false] at hmotor hdiv
  simp only [Machine.setByte, hmotor, hdiv, ne_eq, not_true_eq_false,
    if_false]

theorem setWord_plain (h : m.marked 0xa0 addr.toNat = false) (val : Word) :
    m.setWord addr val = Asm.pokeWord addr.toNat val m := by
  have hmotor : m.marked MEMTYPE_MOTOR addr.toNat = false :=
    Machine.marked_mono rfl h
  have hdiv : m.marked MEMTYPE_DIV addr.toNat = false :=
    Machine.marked_mono rfl h
  rw [Machine.marked_eq_false] at hmotor hdiv
  simp only [Machine.setWord, hmotor, hdiv, ne_eq, not_true_eq_false,
    if_false, Asm.pokeWord]

theorem writeByte_plain (h : m.marked 0xa4 addr.toNat = false) (val : Byte) :
    writeByte addr val m =
      (.ok (), (m.addCycles (m.byteCycles addr)).poke addr.toNat val) := by
  have hplain : (m.addCycles (m.byteCycles addr)).marked 0xa0 addr.toNat =
      false := Machine.marked_mono rfl h
  have htrap : m.byteTrap MEMTYPE_WRITETRAP addr = false :=
    Machine.marked_mono rfl h
  rw [writeByte, trapIf_bind htrap, change, Machine.setByteCycles,
    setByte_plain hplain]

theorem writeWord_plain (h : m.wordMarked 0xa4 addr.toNat = false)
    (val : Word) :
    writeWord addr val m =
      (.ok (), Asm.pokeWord addr.toNat val
        (m.addCycles (m.wordCycles addr))) := by
  obtain ⟨hfirst, hsecond⟩ := Bool.or_eq_false_iff.mp h
  have hplain : (m.addCycles (m.wordCycles addr)).marked 0xa0 addr.toNat =
      false := Machine.marked_mono rfl hfirst
  have htrap : m.wordTrap MEMTYPE_WRITETRAP addr = false := by
    rw [Machine.wordTrap_eq]
    exact Bool.or_eq_false_iff.mpr
      ⟨Machine.marked_mono rfl hfirst, Machine.marked_mono rfl hsecond⟩
  rw [writeWord, trapIf_bind htrap, change, Machine.setWordCycles,
    setWord_plain hplain]

end Accesses

section Fetch

/-- The machine behind the opcode. -/
def Machine.fetched (m : Machine) : Machine :=
  (m.addCycles (m.wordCycles m.pc)).setPc (m.pc + 2)

variable {m : Machine}

theorem even_iff (addr : Word) : addr &&& 1 = 0 ↔ addr.toNat % 2 = 0 := by
  rw [← BitVec.toNat_inj, BitVec.toNat_and]
  exact iff_of_eq (congrArg (· = 0) (Nat.and_one_is_mod _))

theorem even_add_two {addr : Word} (heven : addr &&& 1 = 0) :
    (addr + 2) &&& 1 = 0 := by
  rw [even_iff] at heven ⊢
  have hsum : (addr + 2).toNat = (addr.toNat + 2) % 65536 := rfl
  omega

theorem getOpcode_plain (heven : m.pc &&& 1 = 0)
    (hfirst : m.marked 0x81 m.pc.toNat = false)
    (hsecond : m.marked MEMTYPE_BREAKPOINT (m.pc.toNat + 1) = false) :
    getOpcode m = (.ok (m.peekWord m.pc.toNat), m.fetched) := by
  have htrap : m.wordTrap MEMTYPE_BREAKPOINT m.pc = false := by
    rw [Machine.wordTrap_eq]
    exact Bool.or_eq_false_iff.mpr ⟨Machine.marked_mono rfl hfirst, hsecond⟩
  rw [getOpcode, trapIf_bind (by exact htrap), act_bind,
    Machine.getWordCycles_plain heven (Machine.isDiv_of_marked rfl hfirst)]
  rfl

/-- The shortest epilogue is the fetch of the opcode. -/
theorem epilogue_eq_fetched (m : Machine) : m.epilogue 2 2 = m.fetched := by
  rw [Machine.epilogue, Machine.fetched, Machine.wordCycles_eq]
  rfl

theorem prefetch_plain (heven : m.pc &&& 1 = 0)
    (hplain : m.isDiv m.pc.toNat = false) :
    prefetch m =
      (.ok (m.peekWord m.pc.toNat), m.addCycles (m.wordCycles m.pc)) := by
  rw [prefetch, act, Machine.getWordCycles_plain heven hplain]

theorem nextWord_plain (heven : m.pc &&& 1 = 0)
    (hplain : m.isDiv m.pc.toNat = false) :
    nextWord m = (.ok (m.peekWord m.pc.toNat), m.fetched) := by
  rw [nextWord, bind_ok (prefetch_plain heven hplain)]
  rfl

end Fetch

end BrickEmu
