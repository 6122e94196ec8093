import BrickEmu.AsmFlags
import BrickEmu.RomLcd
import BrickEmu.RomUpdate

/-!
# The timer interrupt of the ROM

`ocia_handler` and `init_timer` of `rom.s` as functions on the memory.  The
registers of the peripherals are cells like the others, and the stack is left
out.
-/

namespace BrickEmu

namespace Rom

section Variables

def timerStruct : Word := 0xefc6
def runHandlerFlags : Word := 0xefc8
def motorDir : Word := 0xefca
def motorWave0 : Word := 0xefcb
def motorWave1 : Word := 0xefcc
def motorWave2 : Word := 0xefcd
def motorOutShadow : Word := 0xefce
def timeCtr0 : Word := 0xefcf
def timeCtr1 : Word := 0xefd0
def timeCtr2 : Word := 0xefd2
def timeCtr3 : Word := 0xefd4
def activeSensors : Word := 0xefd5
def soundQueueTail : Word := 0xefd6
def soundQueueHead : Word := 0xefd7
def soundQueueType : Word := 0xefd8
def soundQueueValue : Word := 0xefe2
def soundQueueFreq : Word := 0xefec
def soundDuration : Word := 0xeff6
def soundPitchPtr : Word := 0xeff8
def soundDurPtr : Word := 0xeffa
def soundFreqmulPtr : Word := 0xeffc
def soundTuneActive : Word := 0xeffe
def motorOut : Word := 0xf000
def port1DdrShadow : Word := 0xfd80
def port2DdrShadow : Word := 0xfd81
def ociaVector : Word := 0xfda2
def adiVector : Word := 0xfdbc

end Variables

section Offsets

/- Where the counters stand in the timer structure. -/

def timerSerialReceiveReset : Word := 0x00
def timerFirmwareTimer0 : Word := 0x02
def timerFirmwareTimer1 : Word := 0x04
def timerFirmwareTimer2 : Word := 0x06
def timerFirmwareTimer3 : Word := 0x08
def timerMinuteCounter : Word := 0x0a
def timerPowerOff : Word := 0x0c
def timerWakeupDelays : Word := 0x0e
def timerMotor0 : Word := 0x22
def timerMotor1 : Word := 0x24
def timerMotor2 : Word := 0x26

end Offsets

section Registers

def tIer : Word := 0xff90
def tCsr : Word := 0xff91
def tCnt : Word := 0xff92
def tOcra : Word := 0xff94
def tCr : Word := 0xff96
def tOcr : Word := 0xff97
def port1Ddr : Word := 0xffb0
def port2Ddr : Word := 0xffb1
def wscr : Word := 0xffc2
def stcr : Word := 0xffc3
def t0Cr : Word := 0xffc8
def t0Csr : Word := 0xffc9
def t0Cora : Word := 0xffca
def adCsr : Word := 0xffe8
def adCr : Word := 0xffe9

end Registers

/-- Where the assembler puts the handlers and the tables of the tunes. -/
structure Labels where
  ociaHandler : Word
  adiHandler : Word
  soundTunesPitchPtr : Word
  soundTunesDurPtr : Word
  soundTunesFreqmulPtr : Word

namespace Ram

def bset (m : Ram) (n : ℕ) (addr : Word) : Ram :=
  m.set addr (m addr ||| ((1 : Byte) <<< n))

def bclr (m : Ram) (n : ℕ) (addr : Word) : Ram :=
  m.set addr (m addr &&& ~~~((1 : Byte) <<< n))

end Ram

section Motors

/-- The output made up by the pass before.  The test for turning the sensors
passive sees the address of the handler instead of the remainder. -/
def outputMotors (m : Ram) : Ram :=
  let m := m.bclr 3 tCsr
  let m := m.set motorOut (m motorOutShadow)
  if highByte (m.get16 ociaVector) = 0 then m.set port6 (m port6 &&& ~~~0x07)
  else m

/-- A wave is rotated right; the motor is off when the carry is clear. -/
def rotateWave (wave : Word) (mask : Byte) (out : Byte) (m : Ram) :
    Byte × Ram :=
  let carry := m wave &&& 1
  let m := m.set wave ((m wave).rotateRight 1)
  (if carry = 0 then out &&& mask else out, m)

def modulateMotors (m : Ram) : Ram :=
  let (out, m) := rotateWave motorWave0 0x3f (m motorDir) m
  let (out, m) := rotateWave motorWave1 (~~~0x0c) out m
  let (out, m) := rotateWave motorWave2 (~~~0x03) out m
  m.set motorOutShadow out

end Motors

section Counters

/-- Of the receive counter only a byte is stored. -/
def tickReceive (timer : Word) (m : Ram) : Ram :=
  let counter := m.get16 timer
  if counter = 0 then m else m.set timer (lowByte (counter - 1))

/-- A motor that has run its time activates handler 1. -/
def tickMotor (timer offset : Word) (m : Ram) : Ram :=
  let counter := m.get16 (timer + offset)
  if counter = 0 then m
  else
    let m := m.set16 (timer + offset) (counter - 1)
    if counter - 1 ≠ 0 then m else m.bset 7 (m.get16 runHandlerFlags + 1)

def tickMotors (timer : Word) (m : Ram) : Ram :=
  let m := tickMotor timer timerMotor0 m
  let m := tickMotor timer timerMotor1 m
  tickMotor timer timerMotor2 m

/-- Handlers 2 and 3 are activated every 130 ms. -/
def tickHandlers (m : Ram) : Ram :=
  let counter := m timeCtr3 + 1
  if counter ≠ 13 then m.set timeCtr3 counter
  else
    let flags := m.get16 runHandlerFlags
    let m := m.bset 7 (flags + 2)
    let m := m.bset 7 (flags + 3)
    m.set timeCtr3 0

def tickMinute (m : Ram) : Ram :=
  let counter := m.get16 timeCtr2 + 1
  if counter ≠ 6001 then m.set16 timeCtr2 counter
  else
    let timer := m.get16 timerStruct
    let powerOff := m.get16 (timer + timerPowerOff)
    let m :=
      if powerOff = 0 then m
      else m.set16 (timer + timerPowerOff) (powerOff - 1)
    let minutes := m.get16 (timer + timerMinuteCounter) + 1
    let m := m.set16 (timer + timerMinuteCounter) minutes
    let m :=
      if minutes < 1440 then m
      else m.set16 (timer + timerMinuteCounter) 0
    m.set16 timeCtr2 0

/-- A firmware timer stays below 32768. -/
def tickFirmwareTimer (addr : Word) (m : Ram) : Ram :=
  m.set16 addr ((m.get16 addr + 1) &&& 0x7fff)

def tickFirmwareTimers (m : Ram) : Ram :=
  let counter := m timeCtr1 + 1
  if counter ≠ 100 then m.set timeCtr1 counter
  else
    let timer := m.get16 timerStruct
    let m := tickFirmwareTimer (timer + timerFirmwareTimer0) m
    let m := tickFirmwareTimer (timer + timerFirmwareTimer1) m
    let m := tickFirmwareTimer (timer + timerFirmwareTimer2) m
    let m := tickFirmwareTimer (timer + timerFirmwareTimer3) m
    m.set timeCtr1 0

/-- Of ten delays each tick counts down one. -/
def tickWakeup (m : Ram) : Ram :=
  let delay := (m timeCtr0 % 10).setWidth 16 + timerWakeupDelays
  let addr := m.get16 timerStruct + delay
  if m addr = 0 then m else m.set addr (m addr - 1)

def startPolling (m : Ram) : Ram :=
  if m timeCtr0 % 3 = 0 then m.set adCsr (m adCsr ||| 0x60) else m

/-- The ticks go from 1 to 30. -/
def tickTime (m : Ram) : Ram :=
  let tick := m timeCtr0 + 1
  m.set timeCtr0 (if tick < 31 then tick else 1)

end Counters

section Sound

@[ext] structure SoundEntry where
  type : Byte
  value : Byte
  freq : Byte
deriving DecidableEq

def nextIndex (index : Byte) : Byte :=
  if index + 1 = 10 then 0 else index + 1

namespace Ram

/-- The entry in a slot of the queue. -/
def soundEntry (m : Ram) (index : Byte) : SoundEntry where
  type := m (soundQueueType + index.setWidth 16)
  value := m (soundQueueValue + index.setWidth 16)
  freq := m (soundQueueFreq + index.setWidth 16)

end Ram

/-- The clock of the sound comes from three bits in two registers. -/
def playSound (duration freq : Byte) (m : Ram) : Ram :=
  let m := m.set soundDuration duration
  let m := m.set stcr (m stcr &&& ~~~(1 : Byte) ||| freq &&& 1)
  m.set t0Cr (m t0Cr &&& ~~~(3 : Byte) ||| freq >>> 1)

def continueTune (pitchPtr : Word) (pitch : Byte) (m : Ram) : Ram :=
  let m := m.set16 soundPitchPtr pitchPtr
  let m := m.set t0Cora pitch
  let durPtr := m.get16 soundDurPtr
  let duration := m durPtr
  let m := m.set16 soundDurPtr (durPtr + 1)
  let freqmulPtr := m.get16 soundFreqmulPtr
  let freqmul := m freqmulPtr
  let m := m.set16 soundFreqmulPtr (freqmulPtr + 1)
  playSound duration freqmul m

def playTune (labels : Labels) (tune : Byte) (m : Ram) : Ram :=
  let m := m.set soundTuneActive 1
  let offset := tune.setWidth 16 + tune.setWidth 16
  let m := m.set16 soundDurPtr (m.get16 (labels.soundTunesDurPtr + offset))
  let m :=
    m.set16 soundFreqmulPtr (m.get16 (labels.soundTunesFreqmulPtr + offset))
  let pitchPtr := m.get16 (labels.soundTunesPitchPtr + offset)
  continueTune (pitchPtr + 1) (m pitchPtr) m

/-- A pause, a tune or a tone. -/
def playEntry (labels : Labels) (entry : SoundEntry) (m : Ram) : Ram :=
  if entry.type = 0 then playSound entry.value 0 m
  else if entry.type = 1 then playTune labels entry.value m
  else playSound entry.value entry.freq (m.set t0Cora entry.type)

/-- The next entry of the queue, if there is one, is taken and played. -/
def nextSound (labels : Labels) (m : Ram) : Option SoundEntry × Ram :=
  let index := nextIndex (m soundQueueHead)
  if index = m soundQueueTail then
    (none, playSound 0 0 (m.set soundPlaying 0))
  else
    let m := m.set soundQueueHead index
    let entry := m.soundEntry index
    (some entry, playEntry labels entry m)

def tickSound (labels : Labels) (m : Ram) : Option SoundEntry × Ram :=
  let duration := m soundDuration
  if duration ≠ 0 then (none, m.set soundDuration (duration - 1))
  else if m soundTuneActive = 0 then nextSound labels m
  else
    let pitchPtr := m.get16 soundPitchPtr
    let pitch := m pitchPtr
    if pitch ≠ 1 then (none, continueTune (pitchPtr + 1) pitch m)
    else nextSound labels (m.set soundTuneActive 0)

/-- The part that runs every 10 ms. -/
def tickTen (labels : Labels) (m : Ram) : Option SoundEntry × Ram :=
  if m timeCtr0 % 10 ≠ 0 then (none, m)
  else
    let (entry, m) := tickSound labels m
    (entry, tickMinute (tickHandlers m))

end Sound

/-- `ocia_handler` with the entry that it takes from the sound queue. -/
def ociaHandler (labels : Labels) (m : Ram) : Option SoundEntry × Ram :=
  let m := modulateMotors (outputMotors m)
  let timer := m.get16 timerStruct
  let m := tickMotors timer (tickReceive timer m)
  let (entry, m) := tickTen labels m
  (entry, tickTime (startPolling (tickWakeup (tickFirmwareTimers m))))

section Init

/-- The variables of `init_timer` with the timer structure and the flags of
the handlers as arguments. -/
def initTimerVariables (labels : Labels) (timer flags : Word) (m : Ram) :
    Ram :=
  let m := m.set16 timerStruct timer
  let m := m.set16 runHandlerFlags flags
  let m := memclr m port1DdrShadow 8
  let m := m.set motorDir 0
  let m := m.set timeCtr0 1
  let m := m.set timeCtr3 1
  let m := m.set timeCtr1 0
  let m := m.set timeCtr2 0
  let m := m.set activeSensors 0
  let m := m.set soundQueueTail 1
  let m := m.set soundQueueHead 0
  let m := memclr m soundQueueType 30
  let m := m.set soundTuneActive 0
  let m := m.set soundPlaying 0
  let m := m.set16 ociaVector labels.ociaHandler
  m.set16 adiVector labels.adiHandler

/-- The registers of the timers, the ports and the converter. -/
def initTimerRegisters (m : Ram) : Ram :=
  let m := m.set t0Cr 0x0b
  let m := m.set t0Csr 0x03
  let m := m.bset 0 stcr
  let m := m.set port1Ddr 0xff
  let m := m.set port1DdrShadow 0xff
  let m := m.set port2Ddr 0xff
  let m := m.set port2DdrShadow 0xff
  let m := m.set motorOut 0
  let m := m.bclr 7 adCr
  let m := m.set adCsr 0x13
  let m := m.bclr 5 wscr
  let m := m.bclr 0 tCr
  let m := m.bset 1 tCr
  let m := m.set tCsr 1
  let m := m.bclr 4 tOcr
  let m := m.set16 tOcra 500
  let m := m.set16 tCnt 0
  let m := m.bclr 3 tCsr
  let m := m.bset 3 tIer
  m.set port6 (m port6 ||| m activeSensors)

def initTimer (labels : Labels) (timer flags : Word) (m : Ram) : Ram :=
  initTimerRegisters (initTimerVariables labels timer flags m)

end Init

end Rom

end BrickEmu
