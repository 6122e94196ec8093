import BrickEmu.CarryBits
import BrickEmu.RunCpu

/-!
# The assembler core

The instructions as `h8300-x86-64.pl` generates them.  The core keeps the
program counter, the flags and the cycle count in registers of the host, so a
body works on the same machine as the bodies of `h8300.pl`.  Sums that the
core forms in 32 bits and does not cut off are indices here as there: beyond
the end of an array they are what lies behind it.

An instruction ends in its epilogue or leaves through a label of
`h8300-x86-64.S`.  Through `clean_up` alone it goes back to the C code, which
then executes it from the start.
-/

namespace BrickEmu

open Program

/-- The labels an instruction of the core may jump to; `unaligned` and
`illegaladdr` are one place. -/
inductive AsmExit where
  | cleanUp
  | illegalOpcode
  | unaligned
  | trap
  deriving DecidableEq

abbrev Asm := Program Machine AsmExit

section HostFlags

/-- The flags of the host that `pushf` delivers and the core looks at. -/
structure HostFlags where
  carry : Bool
  aux : Bool
  zero : Bool
  sign : Bool
  overflow : Bool

/-- The flags at their places in the pushed word. -/
def HostFlags.word (flags : HostFlags) : BitVec 12 :=
  (if flags.carry then 0x001 else 0) ||| (if flags.aux then 0x010 else 0) |||
    (if flags.zero then 0x040 else 0) ||| (if flags.sign then 0x080 else 0) |||
    (if flags.overflow then 0x800 else 0)

/-- The table from masked flags of the host to flags of the processor. -/
def iflags2ccr (i : BitVec 12) : Byte :=
  (if i &&& 0x001 ≠ 0 then 0x01 else 0) |||
    (if i &&& 0x800 ≠ 0 then 0x02 else 0) |||
    (if i &&& 0x040 ≠ 0 then 0x04 else 0) |||
    (if i &&& 0x080 ≠ 0 then 0x08 else 0) |||
    (if i &&& 0x010 ≠ 0 then 0x20 else 0)

variable {w : ℕ}

/-- `adc`, and `add` without a carry. -/
def adc (x y : BitVec w) (c : Bool) : BitVec w × HostFlags :=
  let z := x + y + CarryBits.bit w c
  (z,
    { carry := BitVec.carry w x y c
      aux := BitVec.carry 4 x y c
      zero := z = 0
      sign := z.msb
      overflow := x.msb = y.msb ∧ z.msb ≠ x.msb })

/-- `sbb`, and `sub` and `cmp` without a borrow. -/
def sbb (x y : BitVec w) (c : Bool) : BitVec w × HostFlags :=
  let z := x - y - CarryBits.bit w c
  (z,
    { carry := x.toNat < y.toNat + c.toNat
      aux := x.toNat % 16 < y.toNat % 16 + c.toNat
      zero := z = 0
      sign := z.msb
      overflow := x.msb ≠ y.msb ∧ z.msb ≠ x.msb })

/-- `shl` by one bit. -/
def shl (x : BitVec w) : BitVec w × HostFlags :=
  let z := x <<< 1
  (z,
    { carry := x.msb
      aux := false
      zero := z = 0
      sign := z.msb
      overflow := z.msb ≠ x.msb })

/-- `and`, `or` and `xor` with the given result. -/
def logicFlags (z : BitVec w) : HostFlags :=
  { carry := false, aux := false, zero := z = 0, sign := z.msb,
    overflow := false }

/-- `setNZ`: sign and zero flag from the pushed word. -/
def asmSetNZ (flags : HostFlags) (bl : Byte) : Byte :=
  bl ||| ((flags.word.setWidth 8 >>> 4) &&& 12)

end HostFlags

namespace Machine

/-- `testb` and `testw` on the memory type. -/
def marked (mask : Byte) (addr : ℕ) (m : Machine) : Bool :=
  m.memtype addr &&& mask ≠ 0

def wordMarked (mask : Byte) (addr : ℕ) (m : Machine) : Bool :=
  m.marked mask addr || m.marked mask (addr + 1)

/-- One outside fast memory. -/
def slow (addr : ℕ) (m : Machine) : ℕ :=
  if m.marked MEMTYPE_FAST addr then 0 else 1

/-- The end of an instruction: the cycles, those for slow opcode memory and
the step of the program counter. -/
def epilogue (opclen cycles : ℕ) (m : Machine) : Machine :=
  (m.addCycles (cycles + 2 * opclen * m.slow m.pc.toNat)).setPc
    (m.pc + BitVec.ofNat 16 opclen)

end Machine

namespace Asm

section Common

def cleanUpIf (condition : Machine → Bool) : Asm Unit :=
  leaveIf condition .cleanUp id

def unalignedIf (condition : Machine → Bool) : Asm Unit :=
  leaveIf condition .unaligned id

def illOpc (opc : Word) (mask : Byte) : Asm Unit :=
  leaveIf (fun _ => opcval opc &&& mask ≠ 0) .illegalOpcode id

def addSlowCycles (n addr : ℕ) : Asm Unit :=
  change fun m => m.addCycles (n * m.slow addr)

def spend (n : ℕ) : Asm Unit :=
  change fun m => m.addCycles n

def finish (opclen cycles : ℕ) : Asm Unit :=
  change (Machine.epilogue opclen cycles)

/-- The word behind the opcode. -/
def getWOpc : Asm Word := do
  cleanUpIf fun m => m.marked 0x80 (m.pc.toNat + 2)
  gets fun m => m.peekWord (m.pc.toNat + 2)

def readB (addr : ℕ) : Asm Byte := do
  cleanUpIf (Machine.marked 0x88 addr)
  gets fun m => m.memory addr

def readW (addr : ℕ) : Asm Word := do
  cleanUpIf (Machine.wordMarked 0x88 addr)
  gets fun m => m.peekWord addr

def writeB (addr : ℕ) (val : Byte) : Asm Unit := do
  cleanUpIf (Machine.marked 0xa4 addr)
  change fun m => m.poke addr val

/-- The two bytes of a word. -/
def pokeWord (addr : ℕ) (val : Word) (m : Machine) : Machine :=
  (m.poke addr (val.extractLsb' 8 8)).poke (addr + 1) (val.extractLsb' 0 8)

def writeW (addr : ℕ) (val : Word) : Asm Unit := do
  cleanUpIf (Machine.wordMarked 0xa4 addr)
  change (pokeWord addr val)

/-- The mask of the second test is computed from a text such as `0x88`, which
counts as 0 there, so that the test never fires. -/
def readBport (pattern : Byte) (addr : Word) : Asm Byte := do
  if ← gets (Machine.marked pattern addr.toNat) then
    cleanUpIf (Machine.marked 0 addr.toNat)
    unalignedIf fun _ => addr.toNat < 0xff88
    change (Machine.refresh addr.toNat)
  gets fun m => m.memory addr.toNat

/-- The byte is stored before the `set` function of the port is called. -/
def writeBport (addr : Word) (val : Byte) : Asm Unit := do
  change fun m => m.poke addr.toNat val
  if ← gets (Machine.marked 0x80 addr.toNat) then
    change (Machine.portStore addr.toNat val)

/-- An instruction on registers and flags. -/
def onRegisters (opc : Word) (mask : Byte) (run : Machine → Machine) :
    Asm Unit := do
  illOpc opc mask
  change run
  finish 2 2

end Common

section Arithmetic

variable (opc : Word)

inductive AddSub where
  | ADDB
  | ADDX
  | CMPB
  | SUBB
  | SUBX
  deriving DecidableEq

/-- `AddSubCommon` for bytes, in place in the register.  The extended forms
move the carry flag to the host and set it before. -/
def addSubCommon (op : AddSub) (nr : BitVec 4) (dl : Byte) (m : Machine) :
    Machine :=
  let ext := op = .ADDX ∨ op = .SUBX
  let carry := decide ext && m.ccr.getLsbD 0
  let bl := if ext then m.ccr ||| 1 else m.ccr
  let (dest, flags) :=
    if op = .ADDB ∨ op = .ADDX then adc (m.reg nr) dl carry
    else sbb (m.reg nr) dl carry
  let table := iflags2ccr (flags.word &&& 0x8d1)
  (if op = .CMPB then m else m.setReg nr dest).setCcr
    (if op = .SUBX then (bl ||| 0x2b) &&& (table ||| 0xd0)
      else (bl &&& 0xd0) ||| table)

/-- `AddSubCommon` for words, byte by byte. -/
def addSubWord (sub store : Bool) (m : Machine) : Machine :=
  let alu : Byte → Byte → Bool → Byte × HostFlags := if sub then sbb else adc
  let ax := m.reg16 (rs16 opc)
  let cx := m.reg16 (rd16 opc)
  let low := alu (cx.extractLsb' 0 8) (ax.extractLsb' 0 8) false
  let high := alu (cx.extractLsb' 8 8) (ax.extractLsb' 8 8) low.2.carry
  let cx := high.1 ++ low.1
  let bl := (m.ccr &&& 0xd0) ||| iflags2ccr (high.2.word &&& 0x891)
  (if store then m.setReg16 (rd16 opc) cx else m).setCcr
    (bl ||| if cx = 0 then 4 else 0)

/-- `AddS` and `SubS`: bit 7 of the opcode is the carry. -/
def stepWord (sub : Bool) (m : Machine) : Machine :=
  let alu : Byte → Byte → Bool → Byte × HostFlags := if sub then sbb else adc
  let cx := m.reg16 (rd16 opc)
  let low := alu (cx.extractLsb' 0 8) 1 (opcval opc).msb
  let high := alu (cx.extractLsb' 8 8) 0 low.2.carry
  m.setReg16 (rd16 opc) (high.1 ++ low.1)

/-- `Inc` and `Dec`. -/
def stepByte (sub : Bool) (m : Machine) : Machine :=
  let alu : Byte → Byte → Bool → Byte × HostFlags := if sub then sbb else adc
  let (dest, flags) := alu (m.reg (rd opc)) 1 false
  (m.setReg (rd opc) dest).setCcr
    ((m.ccr &&& 0xf1) ||| iflags2ccr (flags.word &&& 0x8c0))

/-- The immediate forms have the register in the first byte. -/
def byteImmediate (op : AddSub) : Asm Unit :=
  onRegisters opc 0 (addSubCommon op (ri opc) (opcval opc))

def byteRegister (op : AddSub) : Asm Unit :=
  onRegisters opc 0 fun m => addSubCommon op (rd opc) (m.reg (rs opc)) m

end Arithmetic

section Bits

variable (opc : Word)

/-- The instructions that change a bit of a register. -/
def bitImmediate (change : Byte → Byte → Byte) : Asm Unit :=
  onRegisters opc 0x80 fun m =>
    m.setReg (rd opc) (change (m.reg (rd opc)) (1 <<< (rs opc).toNat))

/-- The zero flag is set and then cleared by the bit. -/
def testedBit (cl : ℕ) (val bl : Byte) : Byte :=
  (bl ||| 4) ^^^ (((val >>> cl) &&& 1) <<< 2)

def bTstI : Asm Unit :=
  onRegisters opc 0x80 fun m =>
    m.setCcr (testedBit (rs opc).toNat (m.reg (rd opc)) m.ccr)

def bTst : Asm Unit :=
  onRegisters opc 0 fun m =>
    m.setCcr (testedBit (m.reg (rs opc) &&& 7).toNat (m.reg (rd opc)) m.ccr)

/-- The operation and the number of the bit from the second opcode: 0 sets,
1 inverts and 2 clears the bit. -/
def bitSelection : Asm (Byte × Byte) := do
  let cl ← gets fun m => m.memory (m.pc.toNat + 3)
  leaveIf (fun _ => cl &&& 0x0f ≠ 0) .illegalOpcode id
  let cl := cl >>> 4
  let dl ← gets fun m => m.memory (m.pc.toNat + 2) ^^^ 0x60
  if dl &&& ~~~0x13 = 0 then
    let cl ← gets fun m =>
      if dl &&& 0x10 ≠ 0 then cl else m.reg (cl.setWidth 4) &&& 7
    leaveIf (fun _ => cl &&& 8 ≠ 0) .illegalOpcode id
    leaveIf (fun _ => dl &&& 3 = 3) .illegalOpcode id
    return (dl &&& 3, cl)
  else
    cleanUpIf fun _ => dl ≠ 7
    let bl ← gets Machine.ccr
    let dl := (cl >>> 3) ^^^ bl ^^^ 1
    return ((dl + dl) &&& 3, cl &&& 7)

def bitResult (op cl dl : Byte) : Byte :=
  let dh := 1 <<< cl.toNat
  let dl := if op = 1 then dl else dl ||| dh
  if op = 0 then dl else dl ^^^ dh

/-- The bit instructions that write to memory. -/
def bitops1 (addr : Word) : Asm Unit := do
  cleanUpIf fun m => m.marked 0x80 (m.pc.toNat + 2)
  let (op, cl) ← bitSelection
  let dl ← readBport 0xac addr
  writeBport addr (bitResult op cl dl)
  addSlowCycles 2 addr.toNat
  finish 4 8

def bitAbs1 : Asm Unit :=
  bitops1 (displacement opc)

def bitInd1 : Asm Unit := do
  illOpc opc 0x8f
  let addr ← gets fun m => m.reg16 (rs16 opc)
  bitops1 addr

end Bits

section Branches

variable (opc : Word)

/-- The program counter of the core after a branch, before the epilogue adds
the length of the opcode. -/
def branchBase (pc : Word) : BitVec 32 :=
  pc.setWidth 32 + (opcval opc).signExtend 32

/-- `do_bra`: the default epilogue looks at the memory type behind the
branch. -/
def doBra : Asm Unit := do
  illOpc opc 0x01
  let pc ← gets Machine.pc
  addSlowCycles 4 pc.toNat
  spend 4
  addSlowCycles 4 (branchBase opc pc).toNat
  change (Machine.setPc ((branchBase opc pc).setWidth 16 + 2))

def branch (taken : Byte → Bool) : Asm Unit := do
  if ← gets fun m => taken m.ccr then doBra opc
  else
    let pc ← gets Machine.pc
    addSlowCycles 4 pc.toNat
    finish 2 4

/-- `BRN` is sent to the default epilogue, without its extra cycles. -/
def brn : Asm Unit := finish 2 2

def badTarget (cx : Word) (m : Machine) : Bool :=
  cx &&& 1 ≠ 0 ∨ m.marked 0x80 cx.toNat

def jmpCommon (cx : Word) : Asm Unit := do
  unalignedIf (badTarget cx)
  let pc ← gets Machine.pc
  addSlowCycles 8 pc.toNat
  change (Machine.setPc cx)
  spend 4

def jmpRI : Asm Unit := do
  illOpc opc 0x8f
  let cx ← gets fun m => m.reg16 (rs16 opc)
  jmpCommon cx

def jmpA16 : Asm Unit := do
  illOpc opc 0xff
  let cx ← getWOpc
  spend 2
  jmpCommon cx

/-- The target is `eax`, the return address `edx`. -/
def jsrCommon (eax edx : BitVec 32) : Asm Unit := do
  cleanUpIf fun _ => eax &&& 1 ≠ 0
  let ecx ← gets fun m => (m.reg16 7).setWidth 32 - 2
  cleanUpIf (Machine.wordMarked 0xa4 ecx.toNat)
  change (Machine.setPc (eax.setWidth 16))
  change (pokeWord ecx.toNat (edx.setWidth 16))
  change fun m => m.setReg16 7 (ecx.setWidth 16)
  spend 6
  addSlowCycles 8 edx.toNat
  addSlowCycles 4 ecx.toNat
  change (Machine.beginCall (ecx.setWidth 16))

def bSr : Asm Unit := do
  let edx ← gets fun m => m.pc.setWidth 32 + 2
  jsrCommon ((opcval opc).signExtend 32 + edx) edx

def jsrRI : Asm Unit := do
  illOpc opc 0x8f
  let eax ← gets fun m => (m.reg16 (rs16 opc)).setWidth 32
  let edx ← gets fun m => m.pc.setWidth 32 + 2
  jsrCommon eax edx

def jsrA16 : Asm Unit := do
  illOpc opc 0xff
  let ax ← getWOpc
  spend 2
  let edx ← gets fun m => m.pc.setWidth 32 + 4
  jsrCommon (ax.setWidth 32) edx

/-- `Return`: `RTE` has the flags below the return address. -/
def return_ (rte : Bool) : Asm Unit := do
  let cx ← gets fun m => m.reg16 7
  let fp := cx.toNat
  cleanUpIf fun m =>
    m.wordMarked 0x88 fp || (rte && m.wordMarked 0x88 (fp + 2))
  change (Machine.endFrame (if rte then cx + 2 else cx))
  change fun m => if rte then m.setCcr (m.memory fp) else m
  let target ← gets fun m => m.peekWord (if rte then fp + 2 else fp)
  unalignedIf (badTarget target)
  change fun m => m.setReg16 7 (cx + if rte then 4 else 2)
  let pc ← gets Machine.pc
  addSlowCycles 8 pc.toNat
  addSlowCycles (if rte then 8 else 4) fp
  change (Machine.setPc target)
  spend (if rte then 10 else 8)

end Branches

section Moves

variable (opc : Word)

/-- The flags of a move. -/
def setFlags {w : ℕ} (val : BitVec w) : Asm Unit :=
  change fun m => m.setCcr (asmSetNZ (logicFlags val) (m.ccr &&& 0xf1))

/-- `MovBCore`.  With `inc` the address register changes: before a store, and
after a load, where its old value has been looked at. -/
def movBCore (inc : Bool) (opclen : ℕ) (ax : Word) : Asm Unit := do
  let extra := if inc then 4 else 2
  if opcval opc &&& 0x80 ≠ 0 then
    let ax := if inc then ax - 1 else ax
    let cl ← gets fun m => m.reg (rd opc)
    writeB ax.toNat cl
    change fun m => if inc then m.setReg16 (rs16 opc) ax else m
    addSlowCycles 1 ax.toNat
    setFlags cl
    finish opclen (opclen + extra)
  else
    let cl ← readB ax.toNat
    change fun m => m.setReg (rd opc) cl
    change fun m => if inc then m.setReg16 (rs16 opc) (ax + 1) else m
    addSlowCycles 1 (if inc then ax.toNat + 1 else ax.toNat)
    setFlags cl
    finish opclen (opclen + extra)

/-- `MovWCore`. -/
def movWCore (inc : Bool) (opclen : ℕ) (ax : Word) : Asm Unit := do
  let extra := if inc then 4 else 2
  if opcval opc &&& 0x80 ≠ 0 then
    let cx ← gets fun m => m.reg16 (rd16 opc)
    let ax := if inc then ax - 2 else ax
    writeW ax.toNat cx
    change fun m => if inc then m.setReg16 (rs16 opc) ax else m
    addSlowCycles 4 ax.toNat
    setFlags cx
    finish opclen (opclen + extra)
  else
    let cx ← readW ax.toNat
    change fun m => m.setReg16 (rd16 opc) cx
    change fun m => if inc then m.setReg16 (rs16 opc) (ax + 2) else m
    addSlowCycles 4 (if inc then ax.toNat + 2 else ax.toNat)
    setFlags cx
    finish opclen (opclen + extra)

def movB : Asm Unit :=
  onRegisters opc 0 fun m =>
    let cl := m.reg (rs opc)
    (m.setReg (rd opc) cl).setCcr
      (asmSetNZ (logicFlags cl) (m.ccr &&& 0xf1))

def movBI : Asm Unit :=
  onRegisters opc 0 fun m =>
    (m.setReg (ri opc) (opcval opc)).setCcr
      (asmSetNZ (logicFlags (opcval opc)) (m.ccr &&& 0xf1))

def movBRI : Asm Unit := do
  let ax ← gets fun m => m.reg16 (rs16 opc)
  movBCore opc false 2 ax

def movBRID : Asm Unit := do
  let ax ← getWOpc
  let ax ← gets fun m => ax + m.reg16 (rs16 opc)
  movBCore opc false 4 ax

def movBRIP : Asm Unit := do
  let ax ← gets fun m => m.reg16 (rs16 opc)
  movBCore opc true 2 ax

def movBA16 : Asm Unit := do
  illOpc opc 0x70
  let ax ← getWOpc
  movBCore opc false 4 ax

def movBFA8 : Asm Unit := do
  let addr := displacement opc
  let dl ← readBport 0x88 addr
  change fun m => m.setReg (ri opc) dl
  addSlowCycles 1 addr.toNat
  setFlags dl
  finish 2 4

def movBTA8 : Asm Unit := do
  let addr := displacement opc
  cleanUpIf (Machine.marked 0x24 addr.toNat)
  unalignedIf fun m => m.marked 0xa4 addr.toNat && addr.toNat < 0xff88
  let dl ← gets fun m => m.reg (ri opc)
  setFlags dl
  writeBport addr dl
  addSlowCycles 1 addr.toNat
  finish 2 4

/-- Moves into the stack pointer go back to the C code. -/
def checkFrameSwitch : Asm Unit :=
  cleanUpIf fun _ => rd16 opc = 7

def movW : Asm Unit := do
  illOpc opc 0x88
  checkFrameSwitch opc
  let cx ← gets fun m => m.reg16 (rs16 opc)
  setFlags cx
  change fun m => m.setReg16 (rd16 opc) cx
  finish 2 2

def movWI : Asm Unit := do
  illOpc opc 0xf8
  checkFrameSwitch opc
  let cx ← getWOpc
  setFlags cx
  change fun m => m.setReg16 (rd16 opc) cx
  finish 4 4

def movWRI : Asm Unit := do
  illOpc opc 0x08
  checkFrameSwitch opc
  let ax ← gets fun m => m.reg16 (rs16 opc)
  movWCore opc false 2 ax

def movWRID : Asm Unit := do
  illOpc opc 0x08
  let ax ← getWOpc
  checkFrameSwitch opc
  let ax ← gets fun m => ax + m.reg16 (rs16 opc)
  movWCore opc false 4 ax

def movWRIP : Asm Unit := do
  illOpc opc 0x08
  checkFrameSwitch opc
  let ax ← gets fun m => m.reg16 (rs16 opc)
  movWCore opc true 2 ax

def movWA16 : Asm Unit := do
  illOpc opc 0x78
  let ax ← getWOpc
  checkFrameSwitch opc
  movWCore opc false 4 ax

end Moves

section Rest

variable (opc : Word)

def nop : Asm Unit := do
  illOpc opc 0xff
  cleanUpIf fun m => m.peekWord (m.pc.toNat + 2) = 0x5470
  finish 2 2

def stC : Asm Unit :=
  onRegisters opc 0xf0 fun m => m.setReg (rd opc) m.ccr

/-- The overflow flag stays only for the arithmetic shift. -/
def shL : Asm Unit :=
  onRegisters opc 0x70 fun m =>
    let (dest, flags) := shl (m.reg (rd opc))
    let ah : BitVec 12 := ((opcval opc >>> 4).setWidth 12 <<< 8) ||| 0x0ff
    (m.setReg (rd opc) dest).setCcr
      ((m.ccr &&& 0xf0) ||| iflags2ccr (flags.word &&& 0x8c1 &&& ah))

/-- `LogicI` and `Logic` with the result of the operation. -/
def logic (nr : BitVec 4) (dest : Byte) (m : Machine) : Machine :=
  (m.setReg nr dest).setCcr (asmSetNZ (logicFlags dest) (m.ccr &&& 0xf1))

def logicI (op : Byte → Byte → Byte) : Asm Unit :=
  onRegisters opc 0 fun m =>
    logic (ri opc) (op (m.reg (ri opc)) (opcval opc)) m

def logicR (op : Byte → Byte → Byte) : Asm Unit :=
  onRegisters opc 0 fun m =>
    logic (rd opc) (op (m.reg (rd opc)) (m.reg (rs opc))) m

def handBack : Asm Unit :=
  cleanUpIf fun _ => true

def trap : Asm Unit :=
  leaveIf (fun _ => true) .trap id

end Rest

/-- The jump table. -/
def body (opc : Word) : Mnemonic → Asm Unit
  | .nop => nop opc
  | .stC => stC opc
  | .addB => byteRegister opc .ADDB
  | .addX => byteRegister opc .ADDX
  | .subB => byteRegister opc .SUBB
  | .subX => byteRegister opc .SUBX
  | .cmpB => byteRegister opc .CMPB
  | .addBI => byteImmediate opc .ADDB
  | .addXI => byteImmediate opc .ADDX
  | .subXI => byteImmediate opc .SUBX
  | .cmpBI => byteImmediate opc .CMPB
  | .addW => onRegisters opc 0x88 (addSubWord opc false true)
  | .subW => onRegisters opc 0x88 (addSubWord opc true true)
  | .cmpW => onRegisters opc 0x88 (addSubWord opc true false)
  | .addS => onRegisters opc 0x78 (stepWord opc false)
  | .subS => onRegisters opc 0x78 (stepWord opc true)
  | .inc => onRegisters opc 0xf0 (stepByte opc false)
  | .dec => onRegisters opc 0xf0 (stepByte opc true)
  | .bSetI => bitImmediate opc fun val mask => val ||| mask
  | .bNotI => bitImmediate opc fun val mask => val ^^^ mask
  | .bClrI => bitImmediate opc fun val mask => val &&& ~~~mask
  | .bTstI => bTstI opc
  | .bTst => bTst opc
  | .bitInd => if opc.getLsbD 8 then bitInd1 opc else handBack
  | .bitAbs => if opc.getLsbD 8 then bitAbs1 opc else handBack
  | .bra => doBra opc
  | .brn => brn
  | .bhi => branch opc fun bl => bl &&& 0x5 = 0
  | .blo => branch opc fun bl => bl &&& 0x5 ≠ 0
  | .bcc => branch opc fun bl => bl &&& 0x1 = 0
  | .bcs => branch opc fun bl => bl &&& 0x1 ≠ 0
  | .bne => branch opc fun bl => bl &&& 0x4 = 0
  | .beq => branch opc fun bl => bl &&& 0x4 ≠ 0
  | .bvc => branch opc fun bl => bl &&& 0x2 = 0
  | .bvs => branch opc fun bl => bl &&& 0x2 ≠ 0
  | .bpl => branch opc fun bl => bl &&& 0x8 = 0
  | .bmi => branch opc fun bl => bl &&& 0x8 ≠ 0
  | .bge => branch opc fun bl => ((bl >>> 2) ^^^ bl) &&& 0x2 = 0
  | .blt => branch opc fun bl => ((bl >>> 2) ^^^ bl) &&& 0x2 ≠ 0
  | .bgt => branch opc fun bl => (((bl >>> 2) &&& 0x2) ^^^ bl) &&& 0x6 = 0
  | .ble => branch opc fun bl => (((bl >>> 2) &&& 0x2) ^^^ bl) &&& 0x6 ≠ 0
  | .jmpRI => jmpRI opc
  | .jmpA16 => jmpA16 opc
  | .bSr => bSr opc
  | .jsrRI => jsrRI opc
  | .jsrA16 => jsrA16 opc
  | .rtS => return_ false
  | .rtE => return_ true
  | .trap => trap
  | .movB => movB opc
  | .movBI => movBI opc
  | .movBRI => movBRI opc
  | .movBRID => movBRID opc
  | .movBRIP => movBRIP opc
  | .movBA16 => movBA16 opc
  | .movBFA8 => movBFA8 opc
  | .movBTA8 => movBTA8 opc
  | .movW => movW opc
  | .movWI => movWI opc
  | .movWRI => movWRI opc
  | .movWRID => movWRID opc
  | .movWRIP => movWRIP opc
  | .movWA16 => movWA16 opc
  | .shL => shL opc
  | .or => logicR opc fun x y => x ||| y
  | .xor => logicR opc fun x y => x ^^^ y
  | .and => logicR opc fun x y => x &&& y
  | .orI => logicI opc fun x y => x ||| y
  | .xorI => logicI opc fun x y => x ^^^ y
  | .andI => logicI opc fun x y => x &&& y
  | .sleep | .ldC | .orC | .xorC | .andC | .ldCI | .daa | .das | .mulXU
  | .divXU | .shR | .rotL | .rotR | .not | .jmpAA8 | .jsrAA8 | .bSet | .bNot
  | .bClr | .bSt | .bOr | .bXor | .bAnd | .bLd | .eepMov => handBack

end Asm

/-- One instruction from `start` to `loop`.  Memory that is only logged is
printed and executed. -/
def asmInstruction : Asm Unit := do
  Asm.cleanUpIf fun m => m.marked 0x81 m.pc.toNat
  let opc ← gets fun m => m.peekWord m.pc.toNat
  match Mnemonic.decode (opc >>> 8).toNat with
  | some mnemonic => Asm.body opc mnemonic
  | none => leaveIf (fun _ => true) .illegalOpcode id

namespace Machine

/-- The machine after an instruction that the core executes itself. -/
def afterAsm (m : Machine) : Option Machine :=
  match asmInstruction m with
  | (.ok (), m) => some m
  | (.error .cleanUp, _) => none
  | (.error .illegalOpcode, m) => some { m with dbTrap := 4 }
  | (.error .unaligned, m) => some { m with dbTrap := 10 }
  | (.error .trap, m) => some { m with dbTrap := 5 }

/-- The machine after the same instruction in the C code. -/
def afterC (m : Machine) : Machine :=
  match executeInstruction m with
  | (.ok _, m') => m'
  | (.error exit, m') => m'.atLabel m.pc exit

end Machine

end BrickEmu
