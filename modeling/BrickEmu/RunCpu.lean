import BrickEmu.Instructions

/-!
# The processor loop

The instruction table, `run_cpu` and `cpu_sleep` as a machine that takes one
step after the other: a pass of the loop, one instruction, one pass of the
sleeping processor, or one look at the sockets while the processor is
stopped.
-/

namespace BrickEmu

open Program

/-- The instructions of the table in `h8300.pl`. -/
inductive Mnemonic where
  | nop | sleep | stC | ldC | orC | xorC | andC | ldCI
  | addB | addW | inc | addS | movB | movW | addX | daa
  | shL | shR | rotL | rotR | or | xor | and | not
  | subB | subW | dec | subS | cmpB | cmpW | subX | das
  | movBFA8 | movBTA8
  | bra | brn | bhi | blo | bcc | bcs | bne | beq
  | bvc | bvs | bpl | bmi | bge | blt | bgt | ble
  | mulXU | divXU | rtS | bSr | rtE | trap
  | jmpRI | jmpA16 | jmpAA8 | jsrRI | jsrA16 | jsrAA8
  | bSet | bNot | bClr | bTst | bSt
  | movBRI | movWRI | movBA16 | movWA16
  | movBRIP | movWRIP | movBRID | movWRID
  | bSetI | bNotI | bClrI | bTstI | bOr | bXor | bAnd | bLd
  | movWI | eepMov | bitInd | bitAbs
  | addBI | addXI | cmpBI | subXI | orI | xorI | andI | movBI
  deriving DecidableEq

namespace Mnemonic

/-- The table for the first byte of the opcode. -/
def decode : ℕ → Option Mnemonic
  | 0x00 => some nop | 0x01 => some sleep | 0x02 => some stC
  | 0x03 => some ldC | 0x04 => some orC | 0x05 => some xorC
  | 0x06 => some andC | 0x07 => some ldCI | 0x08 => some addB
  | 0x09 => some addW | 0x0a => some inc | 0x0b => some addS
  | 0x0c => some movB | 0x0d => some movW | 0x0e => some addX
  | 0x0f => some daa | 0x10 => some shL | 0x11 => some shR
  | 0x12 => some rotL | 0x13 => some rotR | 0x14 => some or
  | 0x15 => some xor | 0x16 => some and | 0x17 => some not
  | 0x18 => some subB | 0x19 => some subW | 0x1a => some dec
  | 0x1b => some subS | 0x1c => some cmpB | 0x1d => some cmpW
  | 0x1e => some subX | 0x1f => some das
  | 0x40 => some bra | 0x41 => some brn | 0x42 => some bhi
  | 0x43 => some blo | 0x44 => some bcc | 0x45 => some bcs
  | 0x46 => some bne | 0x47 => some beq | 0x48 => some bvc
  | 0x49 => some bvs | 0x4a => some bpl | 0x4b => some bmi
  | 0x4c => some bge | 0x4d => some blt | 0x4e => some bgt
  | 0x4f => some ble | 0x50 => some mulXU | 0x51 => some divXU
  | 0x54 => some rtS | 0x55 => some bSr | 0x56 => some rtE
  | 0x57 => some trap | 0x59 => some jmpRI | 0x5a => some jmpA16
  | 0x5b => some jmpAA8 | 0x5d => some jsrRI | 0x5e => some jsrA16
  | 0x5f => some jsrAA8 | 0x60 => some bSet | 0x61 => some bNot
  | 0x62 => some bClr | 0x63 => some bTst | 0x67 => some bSt
  | 0x68 => some movBRI | 0x69 => some movWRI | 0x6a => some movBA16
  | 0x6b => some movWA16 | 0x6c => some movBRIP | 0x6d => some movWRIP
  | 0x6e => some movBRID | 0x6f => some movWRID | 0x70 => some bSetI
  | 0x71 => some bNotI | 0x72 => some bClrI | 0x73 => some bTstI
  | 0x74 => some bOr | 0x75 => some bXor | 0x76 => some bAnd
  | 0x77 => some bLd | 0x79 => some movWI | 0x7b => some eepMov
  | 0x7c => some bitInd | 0x7d => some bitInd | 0x7e => some bitAbs
  | 0x7f => some bitAbs
  | n =>
      match n / 16 with
      | 0x2 => some movBFA8 | 0x3 => some movBTA8 | 0x8 => some addBI
      | 0x9 => some addXI | 0xa => some cmpBI | 0xb => some subXI
      | 0xc => some orI | 0xd => some xorI | 0xe => some andI
      | 0xf => some movBI
      | _ => none

/-- The body of an instruction.  Sleeping is left to the loop. -/
def body (opc : Word) : Mnemonic → Exec Unit
  | nop => Instr.nop opc
  | sleep => change fun m => { m with sleeping := true }
  | stC => Instr.stC opc
  | ldC => Instr.ldC opc
  | orC => Instr.orC opc
  | xorC => Instr.xorC opc
  | andC => Instr.andC opc
  | ldCI => Instr.ldCI opc
  | addB => Instr.addB opc
  | addW => Instr.addW opc
  | inc => Instr.inc opc
  | addS => Instr.addS opc
  | movB => Instr.movB opc
  | movW => Instr.movW opc
  | addX => Instr.addX opc
  | daa => Instr.daa opc
  | shL => Instr.shL opc
  | shR => Instr.shR opc
  | rotL => Instr.rotL opc
  | rotR => Instr.rotR opc
  | or => Instr.or opc
  | xor => Instr.xor opc
  | and => Instr.and opc
  | not => Instr.not opc
  | subB => Instr.subB opc
  | subW => Instr.subW opc
  | dec => Instr.dec opc
  | subS => Instr.subS opc
  | cmpB => Instr.cmpB opc
  | cmpW => Instr.cmpW opc
  | subX => Instr.subX opc
  | das => Instr.das opc
  | movBFA8 => Instr.movBFA8 opc
  | movBTA8 => Instr.movBTA8 opc
  | bra => Instr.bra opc
  | brn => Instr.brn
  | bhi => Instr.bhi opc
  | blo => Instr.blo opc
  | bcc => Instr.bcc opc
  | bcs => Instr.bcs opc
  | bne => Instr.bne opc
  | beq => Instr.beq opc
  | bvc => Instr.bvc opc
  | bvs => Instr.bvs opc
  | bpl => Instr.bpl opc
  | bmi => Instr.bmi opc
  | bge => Instr.bge opc
  | blt => Instr.blt opc
  | bgt => Instr.bgt opc
  | ble => Instr.ble opc
  | mulXU => Instr.mulXU opc
  | divXU => Instr.divXU opc
  | rtS => Instr.rtS
  | bSr => Instr.bSr opc
  | rtE => Instr.rtE
  | trap => Instr.trap
  | jmpRI => Instr.jmpRI opc
  | jmpA16 => Instr.jmpA16 opc
  | jmpAA8 => Instr.jmpAA8 opc
  | jsrRI => Instr.jsrRI opc
  | jsrA16 => Instr.jsrA16 opc
  | jsrAA8 => Instr.jsrAA8 opc
  | bSet => Instr.bitReg opc (Instr.bSet opc)
  | bNot => Instr.bitReg opc (Instr.bNot opc)
  | bClr => Instr.bitReg opc (Instr.bClr opc)
  | bTst => Instr.bitReg opc (Instr.bTst opc)
  | bSt => Instr.bitReg opc (Instr.bSt opc)
  | movBRI => Instr.movBRI opc
  | movWRI => Instr.movWRI opc
  | movBA16 => Instr.movBA16 opc
  | movWA16 => Instr.movWA16 opc
  | movBRIP => Instr.movBRIP opc
  | movWRIP => Instr.movWRIP opc
  | movBRID => Instr.movBRID opc
  | movWRID => Instr.movWRID opc
  | bSetI => Instr.bitReg opc (Instr.bSetI opc)
  | bNotI => Instr.bitReg opc (Instr.bNotI opc)
  | bClrI => Instr.bitReg opc (Instr.bClrI opc)
  | bTstI => Instr.bitReg opc (Instr.bTstI opc)
  | bOr => Instr.bitReg opc (Instr.bOr opc)
  | bXor => Instr.bitReg opc (Instr.bXor opc)
  | bAnd => Instr.bitReg opc (Instr.bAnd opc)
  | bLd => Instr.bitReg opc (Instr.bLd opc)
  | movWI => Instr.movWI opc
  | eepMov => Instr.eepMov
  | bitInd => Instr.bitInd opc
  | bitAbs => Instr.bitAbs opc
  | addBI => Instr.addBI opc
  | addXI => Instr.addXI opc
  | cmpBI => Instr.cmpBI opc
  | subXI => Instr.subXI opc
  | orI => Instr.orI opc
  | xorI => Instr.xorI opc
  | andI => Instr.andI opc
  | movBI => Instr.movBI opc

end Mnemonic

/-- One instruction from `GET_OPCODE` to the end of the switch; the result
tells whether it was `SLEEP`. -/
def executeInstruction : Exec Bool := do
  let opc ← getOpcode
  match Mnemonic.decode (opc >>> 8).toNat with
  | some mnemonic =>
      mnemonic.body opc
      return mnemonic = .sleep
  | none =>
      illegalIf true
      return false

namespace Machine

/-- The code at the labels, up to `handletrap`. -/
def atLabel (oldpc : Word) (exit : Exit) (m : Machine) : Machine :=
  match exit with
  | .trap =>
      let m :=
        if m.dbSinglestepPc = oldpc then
          { m with
            dbSinglestepPc := 0xffff
            dbSinglestep := true
            memtype := Function.update m.memtype oldpc.toNat
              m.dbSinglestepMemtype }
        else m
      { m with dbTrap := 5, pc := oldpc }
  | .fault => { m with pc := oldpc }
  | .illOpc => { m with dbTrap := 4, pc := oldpc }

def stopTime (m : Machine) : Machine :=
  if m.stopped = 0 then
    { m with
      stopped := 1
      lastusecs := m.lastusecs - m.hostTimes.headD 0
      hostTimes := m.hostTimes.tail }
  else { m with stopped := m.stopped + 1 }

def contTime (m : Machine) : Machine :=
  if m.stopped = 1 then
    let lastusecs := m.lastusecs + m.hostTimes.headD 0
    { m with
      stopped := 0
      lastusecs := lastusecs
      nextsleep := lastusecs
      hostTimes := m.hostTimes.tail }
  else { m with stopped := m.stopped - 1 }

/-- A single step steps over an interrupt with a breakpoint at the place it
returns to. -/
def stepOverIrq (m : Machine) : Machine :=
  let addr := m.dbSinglestepPc.toNat
  if m.dbSinglestepPc = m.pc then m
  else
    { m with
      dbSinglestepMemtype := m.memtype addr
      memtype := Function.update m.memtype addr
        (m.memtype addr ||| MEMTYPE_BREAKPOINT)
      dbSinglestep := false }

def markSinglestep (m : Machine) : Machine :=
  { m with dbSinglestepPc := m.pc }

/-- `check_irq` as `run_cpu` calls it. -/
def pollIrq (m : Machine) : Machine :=
  if m.dbSinglestep then m.markSinglestep.checkIrq.2.stepOverIrq
  else m.checkIrq.2

/-- The cycles it takes to leave standby mode. -/
def standbyCycles (m : Machine) : ℕ :=
  match (m.syscr &&& 0x70).toNat with
  | 0x00 => 8192
  | 0x10 => 16384
  | 0x20 => 32768
  | 0x30 => 65536
  | 0x40 => 131072
  | 0x50 => 131072
  | _ => 0

def inStandby (m : Machine) : Bool :=
  m.syscr &&& 0x80 ≠ 0

/-- The end of `cpu_sleep`. -/
def wakeUp (m : Machine) : Machine :=
  let m :=
    if m.inStandby then
      resetPeripherals { m with
        clock := { m.clock with
          cycles := addToCycle m.cycles m.standbyCycles } }
    else m
  { m with sleeping := false }

end Machine

/-- Where the processor is in `run_cpu`: at the top of the loop, waiting in
`periph_handletrap`, behind it, or in one of the loops of `cpu_sleep`. -/
inductive Phase where
  | top
  | stopped
  | ready
  | asleep
  | standby
  deriving DecidableEq

structure Cpu where
  machine : Machine
  phase : Phase
  oldpc : Word

namespace Cpu

def start (m : Machine) : Cpu :=
  ⟨{ m with dbSinglestepPc := 0xffff }.doReset, .top, m.pc⟩

/-- `periph_handletrap` up to its loop. -/
def halt (oldpc : Word) (m : Machine) : Cpu :=
  ⟨m.stopTime, .stopped, oldpc⟩

/-- The top of the loop. -/
def enter (cpu : Cpu) : Cpu :=
  let m := cpu.machine
  let m := if m.pc &&& 1 ≠ 0 then { m with dbTrap := 10 } else m
  if m.dbSinglestep then halt m.pc { m with dbTrap := 5 }
  else if m.dbTrap ≠ 0 then halt cpu.oldpc m
  else { cpu with machine := m, phase := .ready }

/-- `SLEEP` after its fetch. -/
def fallAsleep (oldpc : Word) (m : Machine) : Cpu :=
  if m.inStandby then ⟨m.stopTime, .standby, oldpc⟩
  else ⟨m, .asleep, oldpc⟩

def execute (m : Machine) : Cpu :=
  match executeInstruction m with
  | (.ok false, m') => ⟨m', .top, m.pc⟩
  | (.ok true, m') => fallAsleep m.pc m'
  | (.error exit, m') => halt m.pc (m'.atLabel m.pc exit)

/-- The loop body behind the trap handling. -/
def dispatch (cpu : Cpu) : Cpu :=
  let m := cpu.machine
  if m.irqDisabledOne then execute { m with irqDisabledOne := false }
  else if m.deadline ≤ m.cycles then
    { cpu with machine := m.pollIrq, phase := .top }
  else execute m

/-- One pass of a loop of `cpu_sleep` for the given time it skips. -/
def doze (skip : Machine → Machine) (leave : Machine → Machine)
    (cpu : Cpu) : Cpu :=
  let m := cpu.machine
  if m.dbTrap ≠ 0 then
    { cpu with
      machine := (leave { m with pc := m.pc - 2 }).wakeUp, phase := .top }
  else
    let (outcome, m) := (skip m).checkIrq
    if outcome = .none ∧ m.sleeping then { cpu with machine := m }
    else { cpu with machine := (leave m).wakeUp, phase := .top }

/-- The light sleep jumps to the next deadline. -/
def skipToDeadline (m : Machine) : Machine :=
  { m with clock := { m.clock with cycles := m.deadline } }

def step (cpu : Cpu) : Cpu :=
  match cpu.phase with
  | .top => cpu.enter
  | .stopped =>
      if cpu.machine.dbTrap = 0 then
        { cpu with machine := cpu.machine.contTime, phase := .ready }
      else { cpu with machine := cpu.machine.synchronizeTime }
  | .ready => cpu.dispatch
  | .asleep => cpu.doze skipToDeadline id
  | .standby => cpu.doze id Machine.contTime

/-- The emulator from power-on, after any number of steps. -/
def run (m : Machine) (n : ℕ) : Cpu :=
  step^[n] (start m)

end Cpu

end BrickEmu
