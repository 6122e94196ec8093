import BrickEmu.Timer16

/-!
# Motors and display

`motor.c` averages the time each motor is switched on over an interval and
reports changes.  `lcd.c` decodes the two-wire bus that drives the display
from the writes of port 6.  Both write lines to the GUI; the display waits
for the peripherals before it does so, which is left to the caller.
-/

namespace BrickEmu

inductive GuiMessage where
  | motor (nr : Fin 3) (dir : Byte) (on : ℕ)
  | analog (active : Byte)
  | lcd (ptr : ℤ) (data : Byte)
  | lcdEnable (on : Bool)

structure MotorOutput where
  on : ℕ
  lastOn : ℕ
  dir : Byte
  lastDir : Byte

structure Motor where
  outputs : Fin 3 → MotorOutput
  motorVal : Byte
  motorCycles : ℕ
  nextOutputCycles : ℕ
  curAnalogActive : Byte
  analogActive : Byte
  lastAnalogActive : Byte

def UPDATE_INTERVAL : ℕ := 100 * 16000

def SCALER : ℕ := 256

/-- The two bits of `motor_val` for a motor. -/
def Motor.drive (motor : Motor) (nr : Fin 3) : Byte :=
  match nr with
  | 0 => (motor.motorVal >>> 6) &&& 3
  | 1 => (motor.motorVal >>> 2) &&& 3
  | 2 => motor.motorVal &&& 3

def motorUpdate (clock : Clock) (motor : Motor) : Motor :=
  let dcycles := uint64 ((clock.cycles : ℤ) - motor.motorCycles)
  { motor with
    outputs := fun nr =>
      if motor.drive nr ≠ 0 then
        { motor.outputs nr with
          on := (motor.outputs nr).on + dcycles, dir := motor.drive nr }
      else motor.outputs nr
    motorCycles := clock.cycles }

/-- The report for one motor at the end of an interval. -/
def motorReport (nr : Fin 3) (output : MotorOutput) : List GuiMessage :=
  let on := output.on / (UPDATE_INTERVAL / SCALER)
  if output.dir ≠ output.lastDir ∨ on ≠ output.lastOn then
    [.motor nr output.dir on]
  else []

def MotorOutput.restart (output : MotorOutput) : MotorOutput where
  on := 0
  lastOn := output.on / (UPDATE_INTERVAL / SCALER)
  dir := 0
  lastDir := output.dir

def motorUpdateTime (clock : Clock) (motor : Motor) :
    Motor × Clock × List GuiMessage :=
  let motor := motorUpdate clock motor
  let (motor, messages) :=
    if motor.nextOutputCycles ≤ clock.cycles then
      let reports := (List.finRange 3).flatMap fun nr =>
        motorReport nr (motor.outputs nr)
      let changed := motor.analogActive ^^^ motor.lastAnalogActive
      ({ motor with
          nextOutputCycles :=
            addToCycle motor.nextOutputCycles UPDATE_INTERVAL
          outputs := fun nr => (motor.outputs nr).restart
          lastAnalogActive :=
            if changed ≠ 0 then motor.analogActive
            else motor.lastAnalogActive
          analogActive := motor.curAnalogActive },
        reports ++
          if changed ≠ 0 then [.analog (motor.analogActive &&& 7)] else [])
    else (motor, [])
  (motor,
    { clock with
      nextTimerCycle := min motor.nextOutputCycles clock.nextTimerCycle },
    messages)

def setAnalogActive (val : Byte) (motor : Motor) : Motor :=
  { motor with
    curAnalogActive := val
    analogActive := motor.analogActive ||| val }

def setMotor (val : Byte) (clock : Clock) (motor : Motor) : Motor :=
  { motorUpdate clock motor with motorVal := val }

/-- The display's bus is idle when `i2cState` is negative; 0 stands for the
start condition, 1 for a command and 2 for data. -/
structure Lcd where
  lcdData : ℤ → Byte
  lcdMode : Byte
  lcdPtr : Byte
  lcdSubaddr : Byte
  i2cState : Byte
  i2cData : Byte
  i2cBitnr : Byte
  port6 : Byte

def lcdDisplay (ptr : ℤ) (data : Byte) (lcd : Lcd) :
    Lcd × Option GuiMessage :=
  if lcd.lcdData ptr = data then (lcd, none)
  else
    ({ lcd with lcdData := Function.update lcd.lcdData ptr data },
      some (.lcd ptr data))

/-- A complete byte on the bus. -/
def i2cByte (lcd : Lcd) : Lcd × Option GuiMessage :=
  if lcd.i2cState = 0 then
    ({ lcd with i2cState := if lcd.i2cData = 0x7c then 1 else 0xff }, none)
  else if lcd.i2cState = 1 then
    let (lcd, message) :=
      match (lcd.i2cData &&& 0x60).toNat with
      | 0x40 =>
          ({ lcd with lcdMode := lcd.i2cData &&& 0x1f },
            if (lcd.lcdMode ^^^ lcd.i2cData) &&& 0x08 ≠ 0 then
              some (GuiMessage.lcdEnable (lcd.i2cData &&& 0x08 ≠ 0))
            else none)
      | 0x00 => ({ lcd with lcdPtr := lcd.i2cData &&& 0x1f }, none)
      | 0x60 => ({ lcd with lcdSubaddr := lcd.i2cData &&& 7 }, none)
      | _ => (lcd, none)
    ({ lcd with
      i2cState := if lcd.i2cData &&& 0x80 = 0 then 2 else 1 }, message)
  else if lcd.i2cState = 2 then
    if lcd.lcdSubaddr = 0 then
      let (lcd, message) :=
        lcdDisplay (lcd.lcdPtr.sshiftRight 1).toInt lcd.i2cData lcd
      ({ lcd with lcdPtr := lcd.lcdPtr + 2 }, message)
    else (lcd, none)
  else (lcd, none)

/-- The bus part of `set_port6`: the display afterwards and the line for the
GUI, if there is one. -/
def i2cStep (val : Byte) (lcd : Lcd) : Lcd × Option GuiMessage :=
  if lcd.port6 &&& 0x20 = 0 ∧ lcd.i2cState.msb = false then
    let lcd := { lcd with i2cBitnr := lcd.i2cBitnr + 1 }
    if lcd.i2cBitnr < 8 then
      ({ lcd with
        i2cData := lcd.i2cData |||
          (((val + val) &&& 0x80) >>> lcd.i2cBitnr.toNat) }, none)
    else
      let (lcd, message) := i2cByte lcd
      ({ lcd with i2cBitnr := 0xff, i2cData := 0 }, message)
  else if lcd.port6 &&& ~~~val &&& 0x40 ≠ 0 then
    ({ lcd with i2cState := 0, i2cBitnr := 0xff, i2cData := 0 }, none)
  else if ~~~lcd.port6 &&& val &&& 0x40 ≠ 0 then
    ({ lcd with i2cState := 0xff }, none)
  else (lcd, none)

end BrickEmu
