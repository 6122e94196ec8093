import BrickEmu.Machine
import BrickEmu.Program

/-!
# The instructions

The instruction bodies that `h8300.pl` generates, under the names they have
there.  A body may leave through the labels `trap`, `fault` and `illOpc` of
`run_cpu`.  The printing of `debug_printf` is left out.
-/

namespace BrickEmu

/-- The labels an instruction body may jump to. -/
inductive Exit where
  | trap
  | fault
  | illOpc
  deriving DecidableEq

abbrev Exec := Program Machine Exit

open Program

section Fields

variable (opc : Word)

def opcval : Byte := opc.extractLsb' 0 8

/-- `opcval & 0xf` and `opcval & 0x7`. -/
def rd : BitVec 4 := opc.extractLsb' 0 4
def rd16 : BitVec 3 := opc.extractLsb' 0 3

/-- `(opcval >> 4) & 0xf` and `(opcval >> 4) & 0x7`. -/
def rs : BitVec 4 := opc.extractLsb' 4 4
def rs16 : BitVec 3 := opc.extractLsb' 4 3

/-- `(opc >> 8) & 0xf`. -/
def ri : BitVec 4 := opc.extractLsb' 8 4

/-- `(int8) opcval` and the address `(uint16) (int8) opcval`. -/
def displacement : Word := (opcval opc).signExtend 16

end Fields

section Flags

variable {w : ℕ}

def setNZ (dest : BitVec w) (ccr : Byte) : Byte :=
  let ccr := ccr ||| ((dest >>> (w - 4)).setWidth 8 &&& 0x08)
  if dest = 0 then ccr ||| 0x04 else ccr

def setNZV (dest : BitVec w) (ccr : Byte) : Byte :=
  setNZ dest (ccr &&& 0xf1)

/-- Bit `w - 4` of the carries moved to bit 5. -/
def halfCarry (carries : BitVec w) : Byte :=
  (if w = 16 then (carries >>> 7).setWidth 8
    else (carries <<< 1).setWidth 8) &&& 0x20

def setHNZVC (sub : Bool) (oval src dest : BitVec w) (ccr : Byte) : Byte :=
  let ccr := setNZ dest (ccr &&& 0xd0)
  let overflow :=
    if sub then (src ^^^ oval) &&& (dest ^^^ oval)
    else (src ^^^ dest) &&& (dest ^^^ oval)
  let carry :=
    if sub then src ^^^ ((src ^^^ dest) &&& (dest ^^^ oval))
    else src ^^^ ((src ^^^ oval) &&& (dest ^^^ oval))
  ccr ||| ((overflow >>> (w - 2)).setWidth 8 &&& 0x02) |||
    halfCarry (src ^^^ dest ^^^ oval) |||
    ((carry >>> (w - 1)).setWidth 8 &&& 0x01)

end Flags

namespace Machine

def setCcr (ccr : Byte) (m : Machine) : Machine :=
  { m with ccr := ccr }

def setPc (pc : Word) (m : Machine) : Machine :=
  { m with pc := pc }

/-- The trap bits of the byte or word at an address. -/
def byteTrap (mask : Byte) (addr : Word) (m : Machine) : Bool :=
  m.memtype addr.toNat &&& mask ≠ 0

def wordTrap (mask : Byte) (addr : Word) (m : Machine) : Bool :=
  (m.memtype addr.toNat ||| m.memtype (addr.toNat + 1)) &&& mask ≠ 0

/-- `frame_begin` and `frame_end` as the calls and returns use them. -/
def beginCall (sp : Word) (m : Machine) : Machine :=
  m.beginFrame m.cycles sp false

def endFrame (fp : Word) (m : Machine) : Machine :=
  { m with
    frames := frameEnd (BitVec.ofNat 64 m.cycles) m.memory fp m.frames }

/-- `frame_switch` as the word moves use it, for register 7 only. -/
def switchFrame (nr : BitVec 3) (dest : Word) (m : Machine) : Machine :=
  if nr = 7 then
    { m with
      frames := frameSwitch (BitVec.ofNat 64 m.cycles) m.pc (m.reg16 7) dest
        m.frames }
  else m

end Machine

def trapIf (condition : Machine → Bool) : Exec Unit :=
  leaveIf condition .trap id

def illegalIf (condition : Bool) : Exec Unit :=
  leaveIf (fun _ => condition) .illOpc id

/-- `check_pc`: jumps to odd addresses and into unmapped memory. -/
def checkPc : Exec Unit :=
  leaveIf (fun m => m.pc &&& 1 ≠ 0 ∨ m.isDiv m.pc.toNat) .fault
    fun m => { m with dbTrap := 10 }

def getOpcode : Exec Word := do
  trapIf fun m => m.wordTrap MEMTYPE_BREAKPOINT m.pc
  let opc ← act fun m => m.getWordCycles m.pc
  change fun m => m.setPc (m.pc + 2)
  return opc

def readByte (addr : Word) : Exec Byte := do
  let val ← act (Machine.getByteCycles addr)
  trapIf (Machine.byteTrap MEMTYPE_READTRAP addr)
  return val

def readWord (addr : Word) : Exec Word := do
  let val ← act (Machine.getWordCycles addr)
  trapIf (Machine.wordTrap MEMTYPE_READTRAP addr)
  return val

def writeByte (addr : Word) (val : Byte) : Exec Unit := do
  trapIf (Machine.byteTrap MEMTYPE_WRITETRAP addr)
  change (Machine.setByteCycles addr val)

def writeWord (addr : Word) (val : Word) : Exec Unit := do
  trapIf (Machine.wordTrap MEMTYPE_WRITETRAP addr)
  change (Machine.setWordCycles addr val)

/-- The word behind the opcode without a jump over it. -/
def prefetch : Exec Word :=
  act fun m => m.getWordCycles m.pc

/-- The word operand behind the opcode. -/
def nextWord : Exec Word := do
  let val ← prefetch
  change fun m => m.setPc (m.pc + 2)
  return val

def spend (n : ℕ) : Exec Unit :=
  change fun m => m.addCycles n

/-- The bodies that compute on registers and flags alone. -/
def compute (illegal : Bool) (run : Machine → Machine) : Exec Unit := do
  illegalIf illegal
  change run

def call (target : Exec Word) : Exec Unit := do
  let sp ← gets fun m => m.reg16 7 - 2
  let pc ← gets Machine.pc
  writeWord sp pc
  let pc ← target
  change (Machine.setPc pc)
  checkPc
  change (Machine.beginCall sp)
  change fun m => m.setReg16 7 sp

namespace Instr

section Misc

variable (opc : Word)

def nop : Exec Unit := do
  if opcval opc = 0 then
    let _ ← act fun m => m.getWord m.pc
    return ()

def trap : Exec Unit :=
  change fun m => { m with dbTrap := 5 }

/-- `implement`. -/
def eepMov : Exec Unit := do
  change fun m => m.setPc (m.pc - 2)
  let _ ← act fun m => m.getWord m.pc
  change fun m => { m with dbTrap := 4 }

end Misc

section Arithmetic

variable (opc : Word)

/-- Addition to a byte register. -/
def addByte (nr : BitVec 4) (src carry : Byte) (m : Machine) : Machine :=
  let oval := m.reg nr
  let dest := oval + src + carry
  (m.setReg nr dest).setCcr (setHNZVC false oval src dest m.ccr)

/-- The flags of a subtraction from a byte register. -/
def subFlags (nr : BitVec 4) (src borrow : Byte) (m : Machine) : Byte :=
  let oval := m.reg nr
  setHNZVC true oval src (oval - src - borrow) m.ccr

def subByte (nr : BitVec 4) (src borrow : Byte) (m : Machine) : Machine :=
  (m.setReg nr (m.reg nr - src - borrow)).setCcr (subFlags nr src borrow m)

/-- Subtraction with borrow keeps the zero flag only if it was set. -/
def subXByte (nr : BitVec 4) (src : Byte) (m : Machine) : Machine :=
  let borrow := m.ccr &&& 1
  (m.setReg nr (m.reg nr - src - borrow)).setCcr
    (subFlags nr src borrow m &&& (m.ccr ||| ~~~4))

def addBI : Exec Unit :=
  compute false (addByte (ri opc) (opcval opc) 0)

def addB : Exec Unit :=
  compute false fun m => addByte (rd opc) (m.reg (rs opc)) 0 m

def addW : Exec Unit :=
  compute (opcval opc &&& 0x88 ≠ 0) fun m =>
    let oval := m.reg16 (rd16 opc)
    let src := m.reg16 (rs16 opc)
    let dest := oval + src
    (m.setReg16 (rd16 opc) dest).setCcr (setHNZVC false oval src dest m.ccr)

/-- The constant of `ADDS` and `SUBS`: one or two. -/
def stepSize : Word :=
  ((opcval opc >>> 7) + 1).setWidth 16

def addS : Exec Unit :=
  compute (opcval opc &&& 0x78 ≠ 0) fun m =>
    m.setReg16 (rd16 opc) (m.reg16 (rd16 opc) + stepSize opc)

def addXI : Exec Unit :=
  compute false fun m => addByte (ri opc) (opcval opc) (m.ccr &&& 1) m

def addX : Exec Unit :=
  compute false fun m =>
    addByte (rd opc) (m.reg (rs opc)) (m.ccr &&& 1) m

def cmpBI : Exec Unit :=
  compute false fun m => m.setCcr (subFlags (ri opc) (opcval opc) 0 m)

def cmpB : Exec Unit :=
  compute false fun m =>
    m.setCcr (subFlags (rd opc) (m.reg (rs opc)) 0 m)

/-- The flags of a word subtraction. -/
def subWFlags (m : Machine) : Byte :=
  let oval := m.reg16 (rd16 opc)
  let src := m.reg16 (rs16 opc)
  setHNZVC true oval src (oval - src) m.ccr

def cmpW : Exec Unit :=
  compute (opcval opc &&& 0x88 ≠ 0) fun m => m.setCcr (subWFlags opc m)

def subB : Exec Unit :=
  compute false fun m => subByte (rd opc) (m.reg (rs opc)) 0 m

def subW : Exec Unit :=
  compute (opcval opc &&& 0x88 ≠ 0) fun m =>
    (m.setReg16 (rd16 opc)
      (m.reg16 (rd16 opc) - m.reg16 (rs16 opc))).setCcr (subWFlags opc m)

def subS : Exec Unit :=
  compute (opcval opc &&& 0x78 ≠ 0) fun m =>
    m.setReg16 (rd16 opc) (m.reg16 (rd16 opc) - stepSize opc)

def subXI : Exec Unit :=
  compute false (subXByte (ri opc) (opcval opc))

def subX : Exec Unit :=
  compute false fun m => subXByte (rd opc) (m.reg (rs opc)) m

def inc : Exec Unit :=
  compute (opcval opc &&& 0xf0 ≠ 0) fun m =>
    let dest := m.reg (rd opc) + 1
    let ccr := setNZV dest m.ccr
    (m.setReg (rd opc) dest).setCcr
      (if dest = 0x80 then ccr ||| 0x02 else ccr)

def dec : Exec Unit :=
  compute (opcval opc &&& 0xf0 ≠ 0) fun m =>
    let dest := m.reg (rd opc) - 1
    let ccr := setNZV dest m.ccr
    (m.setReg (rd opc) dest).setCcr
      (if dest = 0x7f then ccr ||| 0x02 else ccr)

/-- The half-carry flag is cleared before it is looked at. -/
def daa : Exec Unit :=
  compute false fun m =>
    let dest := m.reg (rd opc)
    let ccr := m.ccr &&& 0xd1
    let dest :=
      if ccr &&& 0x20 ≠ 0 ∨ 0x09 < dest &&& 0x0f then dest + 6 else dest
    let high := decide (ccr &&& 0x01 ≠ 0 ∨ 0x90 < dest &&& 0xf0)
    let dest := if high then dest + 0x60 else dest
    let ccr := if high then ccr ||| 1 else ccr
    (m.setReg (rd opc) dest).setCcr (setNZV dest ccr)

def das : Exec Unit :=
  compute false fun m =>
    let dest := m.reg (rd opc)
    let ccr := m.ccr &&& 0xd1
    let dest := if ccr &&& 0x20 ≠ 0 then dest + 0xfa else dest
    let dest := if ccr &&& 0x01 ≠ 0 then dest + 0xa0 else dest
    (m.setReg (rd opc) dest).setCcr (setNZV dest ccr)

def mulXU : Exec Unit :=
  compute (opcval opc &&& 0x08 ≠ 0) fun m =>
    let dest := (m.reg (1#1 ++ rd16 opc)).setWidth 16 *
      (m.reg (rs opc)).setWidth 16
    (m.addCycles 6).setReg16 (rd16 opc) dest

def divXU : Exec Unit :=
  compute (opcval opc &&& 0x08 ≠ 0) fun m =>
    let dest := m.reg16 (rd16 opc)
    let src := m.reg (rs opc)
    let ccr := (m.ccr &&& 0xf3) ||| ((src >>> 4) &&& 0x08)
    let ccr := if src = 0 then ccr ||| 0x04 else ccr
    let dest :=
      if src = 0 then dest
      else (dest / src.setWidth 16 &&& 0xff) +
        (dest % src.setWidth 16) <<< 8
    ((m.addCycles 6).setCcr ccr).setReg16 (rd16 opc) dest

end Arithmetic

section Bits

/-- What a bit instruction does to its operand: the operand and the flags
afterwards. -/
structure BitOp where
  illegal : Bool
  run : (BitVec 4 → Byte) → Byte → Byte → Byte × Byte

variable (opc : Word)

/-- `(opcval >> 4) & 7` and `opcval >> 7` of the bit instructions. -/
def bitNr : ℕ := (rs16 opc).toNat
def invert : Byte := opcval opc >>> 7

/-- The number of the bit in a register. -/
def bitInReg (reg : BitVec 4 → Byte) : ℕ := (reg (rs opc) &&& 7).toNat

/-- The bit that enters the carry, inverted or not. -/
def carryBit (val : Byte) : Byte :=
  (val >>> bitNr opc) ^^^ invert opc

def bAnd : BitOp where
  illegal := false
  run := fun _ val ccr => (val, ccr &&& (0xfe ||| carryBit opc val))

def bLd : BitOp where
  illegal := false
  run := fun _ val ccr =>
    (val, (ccr &&& 0xfe) ||| (0x01 &&& carryBit opc val))

def bSt : BitOp where
  illegal := false
  run := fun _ val ccr =>
    (if (ccr ^^^ invert opc) &&& 1 ≠ 0 then val ||| (1 <<< bitNr opc)
      else val &&& ~~~((1 : Byte) <<< bitNr opc), ccr)

def bOr : BitOp where
  illegal := false
  run := fun _ val ccr => (val, ccr ||| (0x01 &&& carryBit opc val))

def bXor : BitOp where
  illegal := false
  run := fun _ val ccr => (val, ccr ^^^ (0x01 &&& carryBit opc val))

def bClrI : BitOp where
  illegal := opcval opc &&& 0x80 ≠ 0
  run := fun _ val ccr => (val &&& ~~~((1 : Byte) <<< bitNr opc), ccr)

def bClr : BitOp where
  illegal := false
  run := fun reg val ccr =>
    (val &&& ~~~((1 : Byte) <<< bitInReg opc reg), ccr)

def bSetI : BitOp where
  illegal := opcval opc &&& 0x80 ≠ 0
  run := fun _ val ccr => (val ||| (1 <<< bitNr opc), ccr)

def bSet : BitOp where
  illegal := false
  run := fun reg val ccr => (val ||| (1 <<< bitInReg opc reg), ccr)

def bNotI : BitOp where
  illegal := opcval opc &&& 0x80 ≠ 0
  run := fun _ val ccr => (val ^^^ (1 <<< bitNr opc), ccr)

def bNot : BitOp where
  illegal := false
  run := fun reg val ccr => (val ^^^ (1 <<< bitInReg opc reg), ccr)

/-- The zero flag shows the inverted bit. -/
def testBit (nr : ℕ) (val ccr : Byte) : Byte :=
  (ccr &&& 0xfb) ||| ((0x01 &&& (~~~val >>> nr)) <<< 2)

def bTstI : BitOp where
  illegal := opcval opc &&& 0x80 ≠ 0
  run := fun _ val ccr => (val, testBit (bitNr opc) val ccr)

def bTst : BitOp where
  illegal := false
  run := fun reg val ccr => (val, testBit (bitInReg opc reg) val ccr)

/-- A bit instruction on a register. -/
def bitReg (op : BitOp) : Exec Unit :=
  compute op.illegal fun m =>
    let result := op.run m.reg (m.reg (rd opc)) m.ccr
    (m.setReg (rd opc) result.1).setCcr result.2

/-- The second word of a bit instruction on memory. -/
def bitop (write : Bool) : Option BitOp :=
  match write, (opc >>> 8).toNat with
  | false, 0x63 => some (bTst opc)
  | false, 0x73 => some (bTstI opc)
  | false, 0x74 => some (bOr opc)
  | false, 0x75 => some (bXor opc)
  | false, 0x76 => some (bAnd opc)
  | false, 0x77 => some (bLd opc)
  | true, 0x60 => some (bSet opc)
  | true, 0x61 => some (bNot opc)
  | true, 0x62 => some (bClr opc)
  | true, 0x67 => some (bSt opc)
  | true, 0x70 => some (bSetI opc)
  | true, 0x71 => some (bNotI opc)
  | true, 0x72 => some (bClrI opc)
  | _, _ => none

/-- The bit instruction on the byte at an address, with the test that the
indirect form makes of the second word. -/
def bitMemory (write indirect : Bool) (addr : Word) : Exec Unit := do
  let val ← readByte addr
  let opc ← getOpcode
  illegalIf (indirect ∧ opcval opc &&& 0x0f ≠ 0)
  match bitop opc write with
  | none => illegalIf true
  | some op =>
      illegalIf op.illegal
      let result ← gets fun m => op.run m.reg val m.ccr
      change (Machine.setCcr result.2)
      if write then writeByte addr result.1

def bitAbs : Exec Unit :=
  bitMemory ((opc >>> 8) &&& 1 ≠ 0) false (displacement opc)

def bitInd : Exec Unit := do
  illegalIf (opcval opc &&& 0x8f ≠ 0)
  let addr ← gets fun m => m.reg16 (rs16 opc)
  bitMemory ((opc >>> 8) &&& 1 ≠ 0) true addr

end Bits

section Branches

variable (opc : Word)

def branch (taken : Byte → Bool) : Exec Unit := do
  let _ ← prefetch
  change fun m => if taken m.ccr then m.setPc (m.pc + displacement opc) else m
  checkPc

def bra : Exec Unit := branch opc fun _ => true

/-- The branch that is never taken does not check its target. -/
def brn : Exec Unit := do
  let _ ← prefetch
  return ()

def bhi : Exec Unit := branch opc fun ccr => ccr &&& 0x5 = 0
def blo : Exec Unit := branch opc fun ccr => ccr &&& 0x5 ≠ 0
def bcc : Exec Unit := branch opc fun ccr => ccr &&& 0x1 = 0
def bcs : Exec Unit := branch opc fun ccr => ccr &&& 0x1 ≠ 0
def bne : Exec Unit := branch opc fun ccr => ccr &&& 0x4 = 0
def beq : Exec Unit := branch opc fun ccr => ccr &&& 0x4 ≠ 0
def bvc : Exec Unit := branch opc fun ccr => ccr &&& 0x2 = 0
def bvs : Exec Unit := branch opc fun ccr => ccr &&& 0x2 ≠ 0
def bpl : Exec Unit := branch opc fun ccr => ccr &&& 0x8 = 0
def bmi : Exec Unit := branch opc fun ccr => ccr &&& 0x8 ≠ 0

def bge : Exec Unit :=
  branch opc fun ccr => ((ccr >>> 2) ^^^ ccr) &&& 0x2 = 0

def blt : Exec Unit :=
  branch opc fun ccr => ((ccr >>> 2) ^^^ ccr) &&& 0x2 ≠ 0

def bgt : Exec Unit :=
  branch opc fun ccr => (((ccr >>> 2) &&& 2) ^^^ ccr) &&& 0x6 = 0

def ble : Exec Unit :=
  branch opc fun ccr => (((ccr >>> 2) &&& 2) ^^^ ccr) &&& 0x6 ≠ 0

def bSr : Exec Unit := do
  let _ ← prefetch
  call (gets fun m => m.pc + displacement opc)

def jmpRI : Exec Unit := do
  illegalIf (opcval opc &&& 0x8f ≠ 0)
  let _ ← prefetch
  change fun m => m.setPc (m.reg16 (rs16 opc))
  checkPc

def jmpA16 : Exec Unit := do
  illegalIf (opcval opc ≠ 0)
  spend 2
  let pc ← prefetch
  change (Machine.setPc pc)
  checkPc

def jmpAA8 : Exec Unit := do
  let _ ← prefetch
  spend 2
  let pc ← readWord (displacement opc)
  change (Machine.setPc pc)
  checkPc

def jsrRI : Exec Unit := do
  illegalIf (opcval opc &&& 0x8f ≠ 0)
  let _ ← prefetch
  call (gets fun m => m.reg16 (rs16 opc))

def jsrA16 : Exec Unit := do
  illegalIf (opcval opc ≠ 0)
  let addr ← nextWord
  spend 2
  call (return addr)

def jsrAA8 : Exec Unit := do
  let _ ← prefetch
  call (readWord (displacement opc))

def rtS : Exec Unit := do
  let _ ← prefetch
  spend 2
  let fp ← gets fun m => m.reg16 7
  change (Machine.endFrame fp)
  let pc ← readWord fp
  change (Machine.setPc pc)
  checkPc
  change fun m => m.setReg16 7 (fp + 2)

def rtE : Exec Unit := do
  let _ ← prefetch
  spend 2
  let fp ← gets fun m => m.reg16 7
  change (Machine.endFrame (fp + 2))
  let ccrword ← readWord fp
  change (Machine.setCcr (ccrword.extractLsb' 8 8))
  let pc ← readWord (fp + 2)
  change (Machine.setPc pc)
  checkPc
  change fun m => m.setReg16 7 (fp + 4)

end Branches

section Moves

variable (opc : Word)

/-- Bit 7 of a move selects the direction: set for a store. -/
def isStore : Bool := opcval opc &&& 0x80 ≠ 0

def setFlags {w : ℕ} (dest : BitVec w) : Exec Unit :=
  change fun m => m.setCcr (setNZV dest m.ccr)

/-- The flags come last in the moves that may store. -/
def storeByte (addr : Word) (nr : BitVec 4) : Exec Unit := do
  let dest ← gets fun m => m.reg nr
  writeByte addr dest
  setFlags dest

def loadByte (addr : Word) (nr : BitVec 4) : Exec Unit := do
  let dest ← readByte addr
  change fun m => m.setReg nr dest
  setFlags dest

def storeWord (addr : Word) (nr : BitVec 3) : Exec Unit := do
  let dest ← gets fun m => m.reg16 nr
  writeWord addr dest
  setFlags dest

def loadWord (addr : Word) (nr : BitVec 3) : Exec Unit := do
  let dest ← readWord addr
  change (Machine.switchFrame nr dest)
  change fun m => m.setReg16 nr dest
  setFlags dest

def moveByte (addr : Word) : Exec Unit :=
  if isStore opc then storeByte addr (rd opc) else loadByte addr (rd opc)

def moveWord (addr : Word) : Exec Unit :=
  if isStore opc then storeWord addr (rd16 opc) else loadWord addr (rd16 opc)

def movB : Exec Unit :=
  compute false fun m =>
    let dest := m.reg (rs opc)
    (m.setReg (rd opc) dest).setCcr (setNZV dest m.ccr)

def movBI : Exec Unit :=
  compute false fun m =>
    (m.setReg (ri opc) (opcval opc)).setCcr (setNZV (opcval opc) m.ccr)

def movBRI : Exec Unit := do
  let addr ← gets fun m => m.reg16 (rs16 opc)
  moveByte opc addr

def movBRID : Exec Unit := do
  let disp ← nextWord
  let addr ← gets fun m => disp + m.reg16 (rs16 opc)
  moveByte opc addr

def movBRIP : Exec Unit := do
  spend 2
  if isStore opc then
    let addr ← gets fun m => m.reg16 (rs16 opc) - 1
    let dest ← gets fun m => m.reg (rd opc)
    writeByte addr dest
    change fun m => m.setReg16 (rs16 opc) addr
    setFlags dest
  else
    let addr ← gets fun m => m.reg16 (rs16 opc)
    let dest ← readByte addr
    change fun m => m.setReg16 (rs16 opc) (addr + 1)
    change fun m => m.setReg (rd opc) dest
    setFlags dest

def movBFA8 : Exec Unit := do
  let dest ← readByte (displacement opc)
  setFlags dest
  change fun m => m.setReg (ri opc) dest

/-- Here the flags come before the store. -/
def movBTA8 : Exec Unit := do
  let dest ← gets fun m => m.reg (ri opc)
  setFlags dest
  writeByte (displacement opc) dest

def movBA16 : Exec Unit := do
  illegalIf (opcval opc &&& 0x70 ≠ 0)
  let addr ← nextWord
  moveByte opc addr

/-- The moves into a word register from inside the processor. -/
def setWord (dest : Word) : Exec Unit := do
  setFlags dest
  change (Machine.switchFrame (rd16 opc) dest)
  change fun m => m.setReg16 (rd16 opc) dest

def movW : Exec Unit := do
  illegalIf (opcval opc &&& 0x88 ≠ 0)
  let dest ← gets fun m => m.reg16 (rs16 opc)
  setWord opc dest

def movWI : Exec Unit := do
  illegalIf (opcval opc &&& 0xf8 ≠ 0)
  let dest ← nextWord
  setWord opc dest

def movWRI : Exec Unit := do
  illegalIf (opcval opc &&& 0x08 ≠ 0)
  let addr ← gets fun m => m.reg16 (rs16 opc)
  moveWord opc addr

def movWRID : Exec Unit := do
  illegalIf (opcval opc &&& 0x08 ≠ 0)
  let disp ← nextWord
  let addr ← gets fun m => disp + m.reg16 (rs16 opc)
  moveWord opc addr

def movWRIP : Exec Unit := do
  illegalIf (opcval opc &&& 0x08 ≠ 0)
  spend 2
  if isStore opc then
    let addr ← gets fun m => m.reg16 (rs16 opc) - 2
    let dest ← gets fun m => m.reg16 (rd16 opc)
    writeWord addr dest
    change fun m => m.setReg16 (rs16 opc) addr
    setFlags dest
  else
    let addr ← gets fun m => m.reg16 (rs16 opc)
    let dest ← readWord addr
    change fun m => m.setReg16 (rs16 opc) (addr + 2)
    change (Machine.switchFrame (rd16 opc) dest)
    change fun m => m.setReg16 (rd16 opc) dest
    setFlags dest

def movWA16 : Exec Unit := do
  illegalIf (opcval opc &&& 0x78 ≠ 0)
  let addr ← nextWord
  moveWord opc addr

end Moves

section FlagInstructions

variable (opc : Word)

/-- The flag instructions hold off interrupts for one instruction. -/
def changeCcr (ccr : Machine → Byte) (m : Machine) : Machine :=
  { m with ccr := ccr m, irqDisabledOne := true }

def stC : Exec Unit :=
  compute (opcval opc &&& 0xf0 ≠ 0) fun m => m.setReg (rd opc) m.ccr

def ldC : Exec Unit :=
  compute (opcval opc &&& 0xf0 ≠ 0) (changeCcr fun m => m.reg (rd opc))

def ldCI : Exec Unit :=
  compute false (changeCcr fun _ => opcval opc)

def andC : Exec Unit :=
  compute false (changeCcr fun m => m.ccr &&& opcval opc)

def orC : Exec Unit :=
  compute false (changeCcr fun m => m.ccr ||| opcval opc)

def xorC : Exec Unit :=
  compute false (changeCcr fun m => m.ccr ^^^ opcval opc)

end FlagInstructions

section Shifts

variable (opc : Word)

/-- The shifts and rotations: operand and flags from operand and flags. -/
def shift (run : Byte → Byte → Byte × Byte) : Exec Unit :=
  compute (opcval opc &&& 0x70 ≠ 0) fun m =>
    let result := run (m.reg (rd opc)) m.ccr
    (m.setReg (rd opc) result.1).setCcr (setNZ result.1 result.2)

/-- Bit 7 selects the arithmetic shifts and the rotations past the carry. -/
def isArithmetic : Bool := opcval opc &&& 0x80 ≠ 0

def shL : Exec Unit :=
  shift opc fun val ccr =>
    let ccr := (ccr &&& 0xf0) ||| (val >>> 7)
    let dest := val <<< 1
    (dest,
      if isArithmetic opc ∧ ((dest >>> 7) ^^^ ccr) &&& 1 ≠ 0 then
        ccr ||| 0x02
      else ccr)

def shR : Exec Unit :=
  shift opc fun val ccr =>
    (if isArithmetic opc then val.sshiftRight 1 else val >>> 1,
      (ccr &&& 0xf0) ||| (val &&& 1))

def rotL : Exec Unit :=
  shift opc fun val ccr =>
    if isArithmetic opc then
      let dest := (val <<< 1) ||| (val >>> 7)
      (dest, (ccr &&& 0xf0) ||| (dest &&& 1))
    else
      ((val <<< 1) ||| (ccr &&& 1), (ccr &&& 0xf0) ||| (val >>> 7))

def rotR : Exec Unit :=
  shift opc fun val ccr =>
    if isArithmetic opc then
      ((val >>> 1) ||| (val <<< 7), (ccr &&& 0xf0) ||| (val &&& 1))
    else
      ((val >>> 1) ||| (ccr <<< 7), (ccr &&& 0xf0) ||| (val &&& 1))

end Shifts

section Logic

variable (opc : Word)

def logic (nr : BitVec 4) (dest : Byte) (m : Machine) : Machine :=
  (m.setReg nr dest).setCcr (setNZV dest m.ccr)

def andI : Exec Unit :=
  compute false fun m => logic (ri opc) (m.reg (ri opc) &&& opcval opc) m

def and : Exec Unit :=
  compute false fun m =>
    logic (rd opc) (m.reg (rd opc) &&& m.reg (rs opc)) m

def orI : Exec Unit :=
  compute false fun m => logic (ri opc) (m.reg (ri opc) ||| opcval opc) m

def or : Exec Unit :=
  compute false fun m =>
    logic (rd opc) (m.reg (rd opc) ||| m.reg (rs opc)) m

def xorI : Exec Unit :=
  compute false fun m => logic (ri opc) (m.reg (ri opc) ^^^ opcval opc) m

def xor : Exec Unit :=
  compute false fun m =>
    logic (rd opc) (m.reg (rd opc) ^^^ m.reg (rs opc)) m

def negFlags (dest ccr : Byte) : Byte :=
  let ccr := setNZ dest (ccr &&& 0xd0)
  let ccr := if dest &&& 0x0f ≠ 0 then ccr ||| 0x20 else ccr
  let ccr := if dest = 0x80 then ccr ||| 0x02 else ccr
  if dest ≠ 0 then ccr ||| 0x01 else ccr

/-- Bit 7 makes it a negation. -/
def not : Exec Unit :=
  compute (opcval opc &&& 0x70 ≠ 0) fun m =>
    if opcval opc &&& 0x80 ≠ 0 then
      let dest := -m.reg (rd opc)
      (m.setReg (rd opc) dest).setCcr (negFlags dest m.ccr)
    else
      let dest := ~~~m.reg (rd opc)
      (m.setReg (rd opc) dest).setCcr (setNZV dest m.ccr)

end Logic

end Instr

end BrickEmu
