import BrickEmu.AdSensors
import BrickEmu.Buttons
import BrickEmu.Frame
import BrickEmu.MotorLcd
import BrickEmu.Serial
import BrickEmu.Timer8
import BrickEmu.Watchdog

/-!
# The machine

The complete state of the emulator with memory accesses, the register ports
of the peripherals, the synchronization with the outside world, the reset and
the interrupt entry.

Input from the GUI and the debugger is a list of arrivals: each time
`synchronize_time` looks at its sockets it handles the commands of one
arrival.  The commands stand for the effects the messages have on the
machine; loading a saved state is not among them.  A history variable that
nothing reads records whether a cycle difference has ever wrapped around.
-/

namespace BrickEmu

/-- The kinds of traps the debugger can set on an address. -/
inductive TrapKind where
  | breakpoint
  | writeTrap
  | readTrap
  | access
  deriving DecidableEq

def MEMTYPE_BREAKPOINT : Byte := 0x01
def MEMTYPE_WRITETRAP : Byte := 0x04
def MEMTYPE_READTRAP : Byte := 0x08
def MEMTYPE_MOTOR : Byte := 0x20
def MEMTYPE_FAST : Byte := 0x40
def MEMTYPE_DIV : Byte := 0x80

def TrapKind.mask : TrapKind → Byte
  | .breakpoint => MEMTYPE_BREAKPOINT
  | .writeTrap => MEMTYPE_WRITETRAP
  | .readTrap => MEMTYPE_READTRAP
  | .access => MEMTYPE_BREAKPOINT ||| MEMTYPE_WRITETRAP ||| MEMTYPE_READTRAP

inductive Command where
  | button (button : Button) (pressed : Bool)
  | sensor (channel : ℕ) (value : Word)
  | reset
  | poke (addr : Word) (val : Byte)
  | setRegister (nr : BitVec 3) (val : Word)
  | setCcr (val : Byte)
  | setPc (val : Word)
  | setTrap (addr : Word) (kind : TrapKind)
  | clearTrap (addr : Word) (kind : TrapKind)
  | resume (singlestep : Bool) (addr : Option Word)
  | interrupt
  | disconnect

structure Machine where
  reg : BitVec 4 → Byte
  pc : Word
  ccr : Byte
  clock : Clock
  irqDisabledOne : Bool
  dbTrap : ℕ
  dbSinglestep : Bool
  dbSinglestepPc : Word
  dbSinglestepMemtype : Byte
  memory : ℕ → Byte
  memtype : ℕ → Byte
  serial : Serial
  t16 : Timer16
  t8 : Timer8
  buttons : Buttons
  lcd : Lcd
  ad : AdSensors
  wdog : Watchdog
  motor : Motor
  wcsr : Byte
  syscr : Byte
  sleeping : Bool
  stopped : ℕ
  lastcycles : ℕ
  lastusecs : BitVec 64
  nextsleep : BitVec 64
  frames : Frames
  rom : ℕ → Option Byte
  arrivals : List (List Command)
  hostTimes : List (BitVec 64)
  guiOutput : List GuiMessage
  underflow : Bool

namespace Machine

variable (m : Machine)

def cycles : ℕ := m.clock.cycles

def addCycles (n : ℕ) : Machine :=
  { m with clock := { m.clock with cycles := m.clock.cycles + n } }

def setReg (nr : BitVec 4) (val : Byte) : Machine :=
  { m with reg := Function.update m.reg nr val }

def reg16 (nr : BitVec 3) : Word :=
  m.reg (0#1 ++ nr) ++ m.reg (1#1 ++ nr)

def setReg16 (nr : BitVec 3) (val : Word) : Machine :=
  (m.setReg (0#1 ++ nr) (val.extractLsb' 8 8)).setReg (1#1 ++ nr)
    (val.extractLsb' 0 8)

/-- The interrupt mask bit of `ccr`. -/
def masked : Bool := m.ccr &&& 0x80 ≠ 0

/-- The deadline that applies under the interrupt mask. -/
def deadline : ℕ :=
  if m.masked then m.clock.nextNmiCycle else m.clock.nextTimerCycle

def poke (addr : ℕ) (val : Byte) : Machine :=
  { m with memory := Function.update m.memory addr val }

def peekWord (addr : ℕ) : Word :=
  m.memory addr ++ m.memory (addr + 1)

end Machine

inductive SerialRegister where
  | SMR
  | BRR
  | SCR
  | TDR
  | SSR
  | RDR
  deriving DecidableEq

/-- The registers behind the port table. -/
inductive Port where
  | t16 (register : T16Register)
  | icra
  | wdogControl
  | wdogValue
  | port4
  | port6
  | port7
  | wcsr
  | syscr
  | iscr
  | ier
  | t8 (register : T8Register)
  | serial (register : SerialRegister)
  | addrh (channel : ℕ)
  | addrl
  | adcsr
  | adcr
  deriving DecidableEq

def Port.ofAddr : ℕ → Option Port
  | 0xff90 => some (.t16 .TIER)
  | 0xff91 => some (.t16 .TCSR)
  | 0xff92 => some (.t16 .FRCH)
  | 0xff93 => some (.t16 .FRCL)
  | 0xff94 => some (.t16 .OCRH)
  | 0xff95 => some (.t16 .OCRL)
  | 0xff96 => some (.t16 .TCR)
  | 0xff97 => some (.t16 .TOCR)
  | 0xff98 => some .icra
  | 0xff99 => some .icra
  | 0xffa8 => some .wdogControl
  | 0xffa9 => some .wdogValue
  | 0xffb7 => some .port4
  | 0xffbb => some .port6
  | 0xffbe => some .port7
  | 0xffc2 => some .wcsr
  | 0xffc3 => some (.t8 .STCR)
  | 0xffc4 => some .syscr
  | 0xffc6 => some .iscr
  | 0xffc7 => some .ier
  | 0xffc8 => some (.t8 .TCR0)
  | 0xffc9 => some (.t8 .TCSR0)
  | 0xffca => some (.t8 .TCORA0)
  | 0xffcb => some (.t8 .TCORB0)
  | 0xffcc => some (.t8 .TCNT0)
  | 0xffd0 => some (.t8 .TCR1)
  | 0xffd1 => some (.t8 .TCSR1)
  | 0xffd2 => some (.t8 .TCORA1)
  | 0xffd3 => some (.t8 .TCORB1)
  | 0xffd4 => some (.t8 .TCNT1)
  | 0xffd8 => some (.serial .SMR)
  | 0xffd9 => some (.serial .BRR)
  | 0xffda => some (.serial .SCR)
  | 0xffdb => some (.serial .TDR)
  | 0xffdc => some (.serial .SSR)
  | 0xffdd => some (.serial .RDR)
  | 0xffe0 => some (.addrh 0)
  | 0xffe1 => some .addrl
  | 0xffe2 => some (.addrh 1)
  | 0xffe3 => some .addrl
  | 0xffe4 => some (.addrh 2)
  | 0xffe5 => some .addrl
  | 0xffe6 => some (.addrh 3)
  | 0xffe7 => some .addrl
  | 0xffe8 => some .adcsr
  | 0xffe9 => some .adcr
  | _ => none

namespace Machine

/-- The `get` functions of the port table. -/
def portGet (port : Port) (m : Machine) : Option (Byte × Machine) :=
  match port with
  | .t16 register =>
      let result := t16Read m.t16 register
      some (result.1, { m with t16 := result.2 })
  | .icra => some (0, m)
  | .wdogControl =>
      let result := getWdogTCSR m.wdog
      some (result.1, { m with wdog := result.2 })
  | .wdogValue => some (m.wdog.tcnt, m)
  | .port4 => some (getPort4 m.buttons, m)
  | .port6 => none
  | .port7 => some (getPort7 m.buttons, m)
  | .wcsr => some (m.wcsr, m)
  | .syscr => some (m.syscr, m)
  | .iscr => some (getIscr m.buttons, m)
  | .ier => some (getIer m.buttons, m)
  | .t8 register =>
      let result := t8Read m.clock m.t8 register
      some (result.1, { m with t8 := result.2.1, clock := result.2.2 })
  | .serial .SMR => some (m.serial.smr, m)
  | .serial .BRR => some (m.serial.brr, m)
  | .serial .SCR => some (m.serial.scr, m)
  | .serial .TDR => some (m.serial.tdr, m)
  | .serial .SSR =>
      let result := getSSR m.serial
      some (result.1, { m with serial := result.2 })
  | .serial .RDR => some (m.serial.rdr, m)
  | .addrh channel =>
      let result := getAddrh channel m.ad
      some (result.1, { m with ad := result.2 })
  | .addrl => some (m.ad.tmp, m)
  | .adcsr =>
      let result := getAdcsr m.ad
      some (result.1, { m with ad := result.2 })
  | .adcr => some (m.ad.adcr, m)

/-- Refreshes the memory copy of a register from its `get` function. -/
def refresh (addr : ℕ) (m : Machine) : Machine :=
  match Port.ofAddr addr with
  | some port =>
      match m.portGet port with
      | some (val, m) => m.poke addr val
      | none => m
  | none => m

def isDiv (addr : ℕ) (m : Machine) : Bool :=
  m.memtype addr &&& MEMTYPE_DIV ≠ 0

/-- Ten is the exception number of an illegal access. -/
def illegalAccess (m : Machine) : Machine :=
  { m with dbTrap := 10 }

def getByteDiv (addr : Word) (m : Machine) : Byte × Machine :=
  if 0xff88 < addr.toNat then
    let m := m.refresh addr.toNat
    (m.memory addr.toNat, m)
  else (0, m.illegalAccess)

def getWordDiv (addr : Word) (m : Machine) : Word × Machine :=
  let m :=
    if addr &&& 1 ≠ 0 then m.illegalAccess
    else if 0xff88 < addr.toNat then
      (m.refresh addr.toNat).refresh (addr.toNat + 1)
    else m.illegalAccess
  (m.peekWord addr.toNat, m)

def getByte (addr : Word) (m : Machine) : Byte × Machine :=
  if m.isDiv addr.toNat then m.getByteDiv addr
  else (m.memory addr.toNat, m)

def getWord (addr : Word) (m : Machine) : Word × Machine :=
  if addr &&& 1 = 0 ∧ ¬m.isDiv addr.toNat then (m.peekWord addr.toNat, m)
  else m.getWordDiv addr

/-- The cost of a byte access: one cycle more outside fast memory. -/
def byteCycles (addr : Word) (m : Machine) : ℕ :=
  2 + ((~~~m.memtype addr.toNat &&& MEMTYPE_FAST) >>> 6).toNat

/-- The cost of a word access: four cycles more outside fast memory. -/
def wordCycles (addr : Word) (m : Machine) : ℕ :=
  2 + ((~~~m.memtype addr.toNat &&& MEMTYPE_FAST) >>> 4).toNat

def getByteCycles (addr : Word) (m : Machine) : Byte × Machine :=
  (m.addCycles (m.byteCycles addr)).getByte addr

def getWordCycles (addr : Word) (m : Machine) : Word × Machine :=
  (m.addCycles (m.wordCycles addr)).getWord addr

/-- The time part of `synchronize_time`. -/
def pace (m : Machine) : Machine :=
  let usecs := uint64 ((m.cycles : ℤ) - m.lastcycles) / 16
  { m with
    lastusecs := m.lastusecs + BitVec.ofNat 64 usecs
    lastcycles := m.lastcycles + usecs * 16
    underflow := m.underflow || m.cycles < m.lastcycles }

/-- `synchronize_time` looks at its sockets only when enough time has passed
or while the processor is stopped. -/
def looksAtInput (m : Machine) : Bool :=
  m.nextsleep < m.lastusecs ∨ m.stopped ≠ 0

def updateT16 (m : Machine) : Machine :=
  let result := t16UpdateTime m.clock m.t16
  { m with
    t16 := result.1
    clock := result.2
    underflow := m.underflow || m.cycles < m.t16.myLastCycles }

/-- The `update_time` functions in the order of registration. -/
def updateTimes (m : Machine) : Machine :=
  let (serial, clock) := serUpdateTime m.clock m.serial
  let m := { m with serial := serial, clock := clock }
  let m := m.updateT16
  let (t8, clock) := t8UpdateTime m.clock m.t8
  let m := { m with t8 := t8, clock := clock }
  let (ad, clock) := adUpdateTime m.clock m.ad
  let m := { m with ad := ad, clock := clock }
  let (wdog, clock) := wdogUpdateTime m.clock m.wdog
  let m := { m with wdog := wdog, clock := clock }
  let (motor, clock, messages) := motorUpdateTime m.clock m.motor
  { m with
    motor := motor, clock := clock
    guiOutput := m.guiOutput ++ messages }

/-- The `reset` functions in the order of registration. -/
def resetPeripherals (m : Machine) : Machine :=
  { m with
    serial := serReset m.clock m.serial
    t16 := t16Reset m.clock m.t16
    t8 := t8Reset m.clock m.t8
    buttons := btnReset m.buttons
    ad := adReset m.ad
    wdog := wdogReset m.clock m.wdog }

def readRom (m : Machine) : Machine :=
  { m with memory := fun addr => (m.rom addr).getD (m.memory addr) }

/-- `do_reset` up to its call of `wait_peripherals`. -/
def beginReset (m : Machine) : Machine :=
  readRom (resetPeripherals
    { m with irqDisabledOne := true, ccr := 0x80 })

/-- `do_reset` after its call of `wait_peripherals`. -/
def finishReset (m : Machine) : Machine :=
  let m := { m.addCycles 1 with dbTrap := 0 }
  let (pc, m) := m.getWordCycles 0
  { m with pc := pc }

def setMemtype (addr : ℕ) (type : Byte) (m : Machine) : Machine :=
  { m with memtype := Function.update m.memtype addr type }

/-- The debugger's requests stay below the registers. -/
def debuggerWrite (addr : Word) (change : Machine → Machine)
    (m : Machine) : Machine :=
  if addr.toNat < 0xff88 then change m else m

/-- The commands other than a reset. -/
def handleCommand (command : Command) (m : Machine) : Machine :=
  match command with
  | .button button pressed =>
      let result := btnReadFd button pressed m.clock m.buttons
      { m with buttons := result.1, clock := result.2 }
  | .sensor channel value =>
      { m with ad := adReadFd channel value m.ad }
  | .reset => m
  | .poke addr val => m.debuggerWrite addr fun m => m.poke addr.toNat val
  | .setRegister nr val => m.setReg16 nr val
  | .setCcr val => { m with ccr := val }
  | .setPc val => { m with pc := val }
  | .setTrap addr kind =>
      m.debuggerWrite addr (setMemtype addr.toNat
        (m.memtype addr.toNat ||| kind.mask))
  | .clearTrap addr kind =>
      m.debuggerWrite addr (setMemtype addr.toNat
        (m.memtype addr.toNat &&& ~~~kind.mask))
  | .resume singlestep addr =>
      { m with
        dbSinglestep := singlestep, dbTrap := 0, pc := addr.getD m.pc }
  | .interrupt => { m with dbTrap := 7 }
  | .disconnect => { m with dbTrap := 0 }

/-- `synchronize_time` and `wait_peripherals` call each other through a reset
from the GUI.  Every nesting uses up an arrival, which bounds the fuel. -/
def synchronizeFuel : ℕ → Machine → Machine
  | 0, m => m
  | fuel + 1, m =>
      let m := m.pace
      if m.looksAtInput then
        let commands := m.arrivals.headD []
        let m := { m with arrivals := m.arrivals.tail }
        let m := commands.foldl (fun m command =>
          match command with
          | .reset =>
              let m := (synchronizeFuel fuel m.beginReset).updateTimes
              { m.finishReset with sleeping := false }
          | command => m.handleCommand command) m
        { m with nextsleep := m.lastusecs + 1000 }
      else m

def synchronizeTime (m : Machine) : Machine :=
  synchronizeFuel (m.arrivals.length + 1) m

def waitPeripherals (m : Machine) : Machine :=
  m.synchronizeTime.updateTimes

def doReset (m : Machine) : Machine :=
  m.beginReset.waitPeripherals.finishReset

/-- `set_port6`: a line for the display waits for the peripherals first. -/
def setPort6 (val : Byte) (m : Machine) : Machine :=
  if val &&& 0x20 = 0 then { m with lcd := { m.lcd with port6 := val } }
  else
    let changed := (m.lcd.port6 ^^^ val) &&& 7 ≠ 0
    let (lcd, message) := i2cStep val m.lcd
    let m := { m with lcd := { lcd with port6 := val } }
    let m :=
      match message with
      | some message =>
          let m := m.waitPeripherals
          { m with guiOutput := m.guiOutput ++ [message] }
      | none => m
    if changed then
      { m with motor := setAnalogActive (val &&& 7) m.motor }
    else m

/-- `set_TCR` brings all peripherals up to date first. -/
def setT16 (register : T16Register) (val : Byte) (m : Machine) : Machine :=
  let m := if register = .TCR then m.waitPeripherals else m
  let result := t16Store val m.clock m.t16 register
  { m with t16 := result.1, clock := result.2 }

def setSerial (change : Clock → Serial → Serial × Clock) (m : Machine) :
    Machine :=
  let result := change m.clock m.serial
  { m with serial := result.1, clock := result.2 }

def setButtons (change : Clock → Buttons → Buttons × Clock) (m : Machine) :
    Machine :=
  let result := change m.clock m.buttons
  { m with buttons := result.1, clock := result.2 }

def setAd (change : Clock → AdSensors → AdSensors × Clock) (m : Machine) :
    Machine :=
  let result := change m.clock m.ad
  { m with ad := result.1, clock := result.2 }

/-- The `set` functions of the port table. -/
def portSet (port : Port) (val : Byte) (m : Machine) : Machine :=
  match port with
  | .t16 register => m.setT16 register val
  | .wdogControl => { m with wdog := setPw val m.wdog }
  | .wdogValue =>
      let result := setVal val m.clock m.wdog
      { m with wdog := result.1, clock := result.2 }
  | .port6 => m.setPort6 val
  | .wcsr => { m with wcsr := val }
  | .syscr =>
      { m with syscr := val ^^^ ((m.syscr ^^^ val) &&& 0x0a) }
  | .iscr => m.setButtons (setIscr val)
  | .ier => m.setButtons (setIer val)
  | .t8 register =>
      let result := t8Write val m.clock m.t8 register
      { m with t8 := result.1, clock := result.2 }
  | .serial .SMR => m.setSerial (setSMR val)
  | .serial .BRR => m.setSerial (setBRR val)
  | .serial .SCR => m.setSerial (setSCR val)
  | .serial .TDR => m.setSerial (setTDR val)
  | .serial .SSR => m.setSerial (setSSR val)
  | .adcsr => m.setAd (setAdcsr val)
  | .adcr => m.setAd (setAdcr val)
  | .serial .RDR | .icra | .port4 | .port7 | .addrh _ | .addrl => m

def portStore (addr : ℕ) (val : Byte) (m : Machine) : Machine :=
  match Port.ofAddr addr with
  | some port => m.portSet port val
  | none => m

def setMotorPort (val : Byte) (m : Machine) : Machine :=
  { m with motor := setMotor val m.clock m.motor }

def setByte (addr : Word) (val : Byte) (m : Machine) : Machine :=
  let type := m.memtype addr.toNat
  let m :=
    if type &&& MEMTYPE_MOTOR ≠ 0 then m.setMotorPort val
    else if type &&& MEMTYPE_DIV ≠ 0 then
      if 0xff88 < addr.toNat then m.portStore addr.toNat val
      else m.illegalAccess
    else m
  m.poke addr.toNat val

def setWord (addr : Word) (val : Word) (m : Machine) : Machine :=
  let type := m.memtype addr.toNat
  let high := val.extractLsb' 8 8
  let low := val.extractLsb' 0 8
  let m := (m.poke addr.toNat high).poke (addr.toNat + 1) low
  if type &&& MEMTYPE_MOTOR ≠ 0 then m.setMotorPort low
  else if type &&& MEMTYPE_DIV ≠ 0 then
    if 0xff88 < addr.toNat then
      (m.portStore addr.toNat high).portStore (addr.toNat + 1) low
    else m.illegalAccess
  else m

def setByteCycles (addr : Word) (val : Byte) (m : Machine) : Machine :=
  (m.addCycles (m.byteCycles addr)).setByte addr val

def setWordCycles (addr : Word) (val : Word) (m : Machine) : Machine :=
  (m.addCycles (m.wordCycles addr)).setWord addr val

/-- The deadlines at the start of `check_irq`. -/
def rearm (m : Machine) : Machine :=
  { m with
    clock := { m.clock with
      nextTimerCycle := addToCycle m.cycles MAX_AUTONOMOUS_CYCLES
      nextNmiCycle := addToCycle m.cycles MAX_AUTONOMOUS_CYCLES } }

/-- The `check_irq` functions of the peripherals.  Those of the buttons and
the watchdog consume the request they report. -/
def pollIrqs (m : Machine) : ℕ × Machine :=
  let (btn, buttons) := btnCheckIrq m.buttons
  let (wdogIrq, wdog, clock) := wdogCheckIrq m.clock m.wdog
  let irqs := [serCheckIrq m.serial, t16CheckIrq m.t16, t8CheckIrq m.t8,
    btn, adCheckIrq m.ad, wdogIrq]
  (irqs.foldl min 255,
    { m with buttons := buttons, wdog := wdog, clock := clock })

/-- `frame_begin` as the interrupt entry calls it, with the cycle count of
the moment the interrupt was taken. -/
def beginFrame (cycles : ℕ) (fp : Word) (inIrq : Bool) (m : Machine) :
    Machine :=
  { m with
    frames := frameBegin (BitVec.ofNat 64 cycles) m.pc fp inIrq m.frames }

def enterIrq (selirq : ℕ) (m : Machine) : Machine :=
  let irqcycles := m.cycles
  let m := (m.getWordCycles m.pc).2
  let sp := m.reg16 7 - 4
  let m := m.setWordCycles (sp + 2) m.pc
  let m := m.setWordCycles sp (m.ccr ++ m.ccr)
  let m := m.setReg16 7 sp
  let m := { m with ccr := m.ccr ||| 0x80 }
  let (pc, m) := m.getWordCycles (BitVec.ofNat 16 (selirq * 2))
  { m with pc := pc }.beginFrame irqcycles (sp + 2) true

/-- What the selection of `check_irq` leads to. -/
inductive IrqOutcome where
  | none
  | reset
  | taken (vector : ℕ)
  deriving DecidableEq

def selectIrq (m : Machine) (selirq : ℕ) : IrqOutcome :=
  if selirq < (if m.masked then 4 else 255) then
    if selirq = 0 then .reset else .taken selirq
  else .none

/-- `check_irq` with the interrupt it takes. -/
def checkIrq (m : Machine) : IrqOutcome × Machine :=
  let m := m.rearm.waitPeripherals
  let (selirq, m) := m.pollIrqs
  let outcome := m.selectIrq selirq
  (outcome,
    match outcome with
    | .none => m
    | .reset =>
        doReset { m with
          clock := { m.clock with cycles := m.clock.nextNmiCycle } }
    | .taken vector => m.enterIrq vector)

/-- The memory map that `mem_init` sets up. -/
def memInit (addr : ℕ) : Byte :=
  if addr < 0x4000 then MEMTYPE_FAST ||| MEMTYPE_WRITETRAP
  else if addr < 0x8000 then MEMTYPE_DIV
  else if addr < 0xf000 then 0
  else if addr < 0xfb80 then MEMTYPE_MOTOR
  else if addr < 0xfd80 then MEMTYPE_DIV
  else if addr < 0xff80 then MEMTYPE_FAST
  else if addr < 0xff88 then MEMTYPE_MOTOR
  else if addr < 0x10000 then MEMTYPE_DIV
  else 0

/-- The state in which `main` calls `run_cpu`: the ROM is loaded, the static
variables are zero and the initialization functions have run. -/
def powerOn (rom : ℕ → Option Byte) (input : List (Option Byte))
    (arrivals : List (List Command)) (hostTimes : List (BitVec 64)) :
    Machine where
  reg := fun _ => 0
  pc := 0
  ccr := 0
  clock := ⟨0, 0, 0⟩
  irqDisabledOne := false
  dbTrap := 0
  dbSinglestep := false
  dbSinglestepPc := 0xffff
  dbSinglestepMemtype := 0
  memory := fun addr => (rom addr).getD 0
  memtype := memInit
  serial := ⟨0, 0, 0, 0, 0, 0, 0, 0, false, 0, 0, input, []⟩
  t16 := ⟨0, 0, 0, 0, 0, 0, 0, 0, 0⟩
  t8 := ⟨⟨0, 0, 0, 0, 0, 0, 0, 0⟩, ⟨0, 0, 0, 0, 0, 0, 0, 0⟩, 0, []⟩
  buttons := ⟨0, 0, 0, 0⟩
  lcd := ⟨fun _ => 0, 0, 0, 0, 0xff, 0, 0, 0⟩
  ad := ⟨fun _ => 0, fun _ => 0, 0, 0, 0, 0, 0, 0⟩
  wdog := ⟨0x10, 0x10, 0, 0, 0⟩
  motor := ⟨fun _ => ⟨0, 0, 0, 0⟩, 0, 0, 0, 0, 0, 0⟩
  wcsr := 8
  syscr := 0x0b
  sleeping := false
  stopped := 0
  lastcycles := 0
  lastusecs := hostTimes.headD 0
  nextsleep := hostTimes.headD 0
  frames := ⟨fun _ => ⟨0, 0, 0, 0, emptyFrame, []⟩, 0, hashInit 5, none,
    fun _ => none⟩
  rom := rom
  arrivals := arrivals
  hostTimes := hostTimes.tail
  guiOutput := []
  underflow := false

end Machine

end BrickEmu
