import BrickEmu.Timer16

/-!
# Buttons and their interrupt lines

The registers of `buttons.c`.  A line whose ISCR bit is clear requests an
interrupt while its button is down and IER enables it.  A line whose ISCR bit
is set latches the moment of pressing in `irqpending`.
-/

namespace BrickEmu

structure Buttons where
  btnState : Byte
  iscr : Byte
  ier : Byte
  irqpending : Byte
  deriving DecidableEq

inductive Button where
  | run
  | onoff
  | view
  | prgm
  deriving DecidableEq

def Button.mask : Button → Byte
  | .run => 0x01
  | .onoff => 0x02
  | .view => 0x40
  | .prgm => 0x80

namespace Buttons

/-- The lines that request an interrupt by their level. -/
def levels (buttons : Buttons) : Byte :=
  ~~~buttons.btnState &&& buttons.ier &&& ~~~buttons.iscr &&& 7

def requests (buttons : Buttons) : Byte :=
  buttons.levels ||| buttons.irqpending

end Buttons

def btnReset (_buttons : Buttons) : Buttons where
  iscr := 0
  ier := 0
  irqpending := 0
  btnState := 0xff

def btnCheckNextCycle (buttons : Buttons) (clock : Clock) : Clock :=
  if buttons.levels ||| (buttons.irqpending &&& buttons.iscr) ≠ 0 then
    { clock with nextTimerCycle := clock.cycles }
  else clock

/-- `btn_read_fd` for the button the message names. -/
def btnReadFd (button : Button) (pressed : Bool) (clock : Clock)
    (buttons : Buttons) : Buttons × Clock :=
  let mask := button.mask
  let newval : Byte := if pressed then 0 else 0xff
  if (buttons.btnState ^^^ newval) &&& mask ≠ 0 then
    let buttons := { buttons with
      irqpending := buttons.irqpending |||
        (buttons.btnState &&& mask &&& buttons.iscr &&& 7)
      btnState := buttons.btnState ^^^ mask }
    (buttons, btnCheckNextCycle buttons clock)
  else (buttons, clock)

/-- Returns the vector of the first requesting line and drops its latched
request. -/
def btnCheckIrq (buttons : Buttons) : ℕ × Buttons :=
  match (List.range 3).find? fun i => buttons.requests.getLsbD i with
  | some i =>
      (4 + i, { buttons with
        irqpending := buttons.irqpending &&& ~~~((1 : Byte) <<< i) })
  | none => (255, buttons)

def setIscr (value : Byte) (clock : Clock) (buttons : Buttons) :
    Buttons × Clock :=
  let buttons := { buttons with
    iscr := value &&& 7
    irqpending := buttons.irqpending &&& (value &&& 7) }
  (buttons, btnCheckNextCycle buttons clock)

/-- The source returns `ier` here as well. -/
def getIscr (buttons : Buttons) : Byte :=
  buttons.ier ||| 0xf8

def setIer (value : Byte) (clock : Clock) (buttons : Buttons) :
    Buttons × Clock :=
  let buttons := { buttons with ier := value &&& 7 }
  (buttons, btnCheckNextCycle buttons clock)

def getIer (buttons : Buttons) : Byte :=
  buttons.ier ||| 0xf8

def getPort4 (buttons : Buttons) : Byte :=
  1 ||| (buttons.btnState &&& 2) ||| ((buttons.btnState &&& 1) <<< 2)

def getPort7 (buttons : Buttons) : Byte :=
  buttons.btnState &&& 0xc0

end BrickEmu
