import BrickEmu.ByteStream
import BrickEmu.RunCpu
import BrickEmu.Symbols

/-!
# The blocks of the peripherals in a saved state

The `save_data` and `load_data` functions.  They copy the registers to and
from a structure in a buffer, laid out for a little-endian host with 64-bit
cycle counts.  `htonl` is applied to the cycle counts as well, so that only
their low 32 bits are stored.  Fields and padding that a function does not
set keep what the buffer held before; the functions that leave any get the
buffer as an argument.
-/

namespace BrickEmu

/-- The parts of the process that a saved state is about. -/
structure Emulator where
  machine : Machine
  symbols : SymbolTree
  waitStates : BitVec 32
  serStcr : Byte

/-- A cycle count after `htonl` in a field of 64 bits. -/
def bytesCycle (cycles : ℕ) : List Byte :=
  bytes32 (BitVec.ofNat 32 cycles) ++ [0, 0, 0, 0]

def Buffer.readCycle (buf : Buffer) (i : ℕ) : ℕ :=
  (buf.read32 i).toNat

def serSave (stcr : Byte) (serial : Serial) : List Byte :=
  [serial.rdr, serial.tdr, serial.smr, serial.scr, serial.ssr,
    serial.readssr, serial.brr, stcr]

def serLoad (buf : Buffer) (clock : Clock) (serial : Serial) : Serial :=
  let serial := serUpdateCycles clock { serial with
    rdr := buf 0, tdr := buf 1, smr := buf 2, scr := buf 3, ssr := buf 4
    readssr := buf 5, brr := buf 6 }
  { serial with txCycle := addToCycle clock.cycles serial.serCycles }

def periphSave (buf : Buffer) (waitStates : BitVec 32) (m : Machine) :
    List Byte :=
  bytes32 waitStates ++ buf.slice 4 4 ++ bytesCycle m.clock.cycles ++
    bytesCycle m.clock.nextTimerCycle ++ bytesCycle m.clock.nextNmiCycle ++
    bytes32 (BitVec.ofNat 32 m.dbTrap) ++
    (List.range 16).map (fun nr => m.reg (BitVec.ofNat 4 nr)) ++
    bytes16 (if m.sleeping then m.pc - 2 else m.pc) ++ [m.ccr, m.syscr]

def periphLoad (buf : Buffer) (m : Machine) : Machine :=
  { m with
    reg := fun nr => buf (36 + nr.toNat)
    pc := buf.read16 52
    ccr := buf 54
    syscr := buf 55
    clock := ⟨buf.readCycle 8, buf.readCycle 16, buf.readCycle 24⟩
    dbTrap := (buf.read32 32).toNat
    sleeping := false
    lastcycles := buf.readCycle 8
    lastusecs := 0 }

/-- The structure has a field for `temp` that is not set. -/
def t16Save (buf : Buffer) (timer : Timer16) : List Byte :=
  bytesCycle timer.myLastCycles ++ bytes16 timer.frc ++ bytes16 timer.ocra ++
    bytes16 timer.ocrb ++ [timer.tcsr, timer.tier, timer.tcr, timer.tocr] ++
    buf.slice 18 6

def t16Load (buf : Buffer) (timer : Timer16) : Timer16 :=
  { timer with
    myLastCycles := buf.readCycle 0
    frc := buf.read16 8
    ocra := buf.read16 10
    ocrb := buf.read16 12
    tcsr := buf 14
    tier := buf 15
    tcr := buf 16
    tocr := buf 17 }

def t8Save (buf : Buffer) (timer : Timer8) : List Byte :=
  bytesCycle timer.ch0.lastCycles ++ bytesCycle timer.ch1.lastCycles ++
    bytesCycle timer.ch0.myNextCycle ++ bytesCycle timer.ch1.myNextCycle ++
    [timer.ch0.tcnt, timer.ch1.tcnt, timer.ch0.tcr, timer.ch1.tcr,
      timer.ch0.tcsr, timer.ch1.tcsr, timer.ch0.tcora, timer.ch1.tcora,
      timer.ch0.tcorb, timer.ch1.tcorb, timer.ch0.out, timer.ch1.out,
      timer.stcr] ++ buf.slice 45 3

/-- The fields of one channel in the arrays of the structure. -/
def t8LoadChannel (buf : Buffer) (i : ℕ) : T8Channel where
  lastCycles := buf.readCycle (8 * i)
  myNextCycle := buf.readCycle (16 + 8 * i)
  tcnt := buf (32 + i)
  tcr := buf (34 + i)
  tcsr := buf (36 + i)
  tcora := buf (38 + i)
  tcorb := buf (40 + i)
  out := buf (42 + i)

def t8Load (buf : Buffer) (timer : Timer8) : Timer8 :=
  { timer with
    ch0 := t8LoadChannel buf 0, ch1 := t8LoadChannel buf 1, stcr := buf 44 }

def btnSave (buttons : Buttons) : List Byte :=
  [buttons.btnState, buttons.iscr, buttons.ier, buttons.irqpending]

/-- The buttons themselves stay as they are pressed now. -/
def btnLoad (buf : Buffer) (clock : Clock) (buttons : Buttons) :
    Buttons × Clock :=
  let buttons := { buttons with
    iscr := buf 1
    ier := buf 2
    irqpending := buf 3 ||| (buf 0 &&& ~~~buttons.btnState &&& buf 1 &&& 7) }
  (buttons, btnCheckNextCycle buttons clock)

def lcdSave (lcd : Lcd) : List Byte :=
  (List.range 12).map (fun ptr : ℕ => lcd.lcdData ptr) ++
    [lcd.lcdMode, lcd.lcdPtr, lcd.lcdSubaddr, lcd.i2cState, lcd.i2cData,
      lcd.i2cBitnr, lcd.port6]

def lcdLoad (buf : Buffer) (lcd : Lcd) : Lcd :=
  { lcd with
    lcdData := fun ptr =>
      if 0 ≤ ptr ∧ ptr < 12 then buf ptr.toNat else lcd.lcdData ptr
    lcdMode := buf 12
    lcdPtr := buf 13
    lcdSubaddr := buf 14
    i2cState := buf 15
    i2cData := buf 16
    i2cBitnr := buf 17
    port6 := buf 18 }

/-- The lines with which `lcd_load` shows the new contents. -/
def lcdShow (lcd : Lcd) : List GuiMessage :=
  (List.range 12).map (fun ptr : ℕ => .lcd ptr (lcd.lcdData ptr)) ++
    [.lcdEnable (lcd.lcdMode &&& 0x08 ≠ 0), .analog (lcd.port6 &&& 7)]

def adSave (buf : Buffer) (ad : AdSensors) : List Byte :=
  bytesCycle ad.adStartCycle ++ bytes16 (ad.polled 0) ++
    bytes16 (ad.polled 1) ++ bytes16 (ad.polled 2) ++ bytes16 (ad.polled 3) ++
    [ad.tmp, ad.adcsr, ad.readAdcsr, ad.adcr, ad.adchannel] ++ buf.slice 21 3

def adLoad (buf : Buffer) (ad : AdSensors) : AdSensors :=
  { ad with
    polled := fun i => if i < 4 then buf.read16 (8 + 2 * i) else ad.polled i
    tmp := buf 16
    adcsr := buf 17
    readAdcsr := buf 18
    adcr := buf 19
    adchannel := buf 20
    adStartCycle := buf.readCycle 0 }

def wdogSave (buf : Buffer) (wdog : Watchdog) : List Byte :=
  bytesCycle wdog.lastCycles ++
    [wdog.tcsr, wdog.readtcsr, wdog.tcnt, wdog.pw] ++ buf.slice 12 4

def wdogLoad (buf : Buffer) (_wdog : Watchdog) : Watchdog where
  lastCycles := buf.readCycle 0
  tcsr := buf 8
  readtcsr := buf 9
  tcnt := buf 10
  pw := buf 11

/-- The registered peripherals that save their state. -/
inductive SavedPeripheral where
  | serial
  | periph
  | t16
  | t8
  | buttons
  | lcd
  | ad
  | wdog
  deriving DecidableEq

namespace SavedPeripheral

/-- In the order of registration: the serial interface comes before the
processor with its cycle count. -/
def all : List SavedPeripheral :=
  [serial, periph, t16, t8, buttons, lcd, ad, wdog]

def id : SavedPeripheral → Byte
  | serial => 0x53
  | periph => 0x50
  | t16 => 0x54
  | t8 => 0x38
  | buttons => 0x42
  | lcd => 0x4c
  | ad => 0x41
  | wdog => 0x57

def saveData (buf : Buffer) (e : Emulator) : SavedPeripheral → List Byte
  | serial => serSave e.serStcr e.machine.serial
  | periph => periphSave buf e.waitStates e.machine
  | t16 => t16Save buf e.machine.t16
  | t8 => t8Save buf e.machine.t8
  | buttons => btnSave e.machine.buttons
  | lcd => lcdSave e.machine.lcd
  | ad => adSave buf e.machine.ad
  | wdog => wdogSave buf e.machine.wdog

def loadData (buf : Buffer) (e : Emulator) : SavedPeripheral → Emulator
  | serial =>
      { e with
        machine := { e.machine with
          serial := serLoad buf e.machine.clock e.machine.serial }
        serStcr := buf 7 }
  | periph =>
      { e with
        machine := periphLoad buf e.machine, waitStates := buf.read32 0 }
  | t16 =>
      { e with
        machine := { e.machine with t16 := t16Load buf e.machine.t16 } }
  | t8 =>
      { e with machine := { e.machine with t8 := t8Load buf e.machine.t8 } }
  | buttons =>
      let result := btnLoad buf e.machine.clock e.machine.buttons
      { e with
        machine := { e.machine with
          buttons := result.1, clock := result.2 } }
  | lcd =>
      let lcd := lcdLoad buf e.machine.lcd
      { e with
        machine := { e.machine with
          lcd := lcd, guiOutput := e.machine.guiOutput ++ lcdShow lcd } }
  | ad =>
      { e with machine := { e.machine with ad := adLoad buf e.machine.ad } }
  | wdog =>
      { e with
        machine := { e.machine with wdog := wdogLoad buf e.machine.wdog } }

end SavedPeripheral

/-- A cycle count as it comes back. -/
def storedCycle (cycles : ℕ) : ℕ := cycles % 2 ^ 32

section Restored

variable (saved present : Machine)

def restoredSerial : Serial :=
  let serial := serUpdateCycles present.clock { saved.serial with
    receiving := present.serial.receiving
    input := present.serial.input
    output := present.serial.output }
  { serial with
    txCycle := addToCycle present.clock.cycles serial.serCycles }

def restoredProcessor : Machine :=
  { present with
    reg := saved.reg
    pc := if saved.sleeping then saved.pc - 2 else saved.pc
    ccr := saved.ccr
    syscr := saved.syscr
    clock := ⟨storedCycle saved.clock.cycles,
      storedCycle saved.clock.nextTimerCycle,
      storedCycle saved.clock.nextNmiCycle⟩
    dbTrap := storedCycle saved.dbTrap
    sleeping := false
    lastcycles := storedCycle saved.clock.cycles
    lastusecs := 0 }

def restoredT16 : Timer16 :=
  { saved.t16 with
    temp := present.t16.temp
    myLastCycles := storedCycle saved.t16.myLastCycles }

def restoredChannel (channel : T8Channel) : T8Channel :=
  { channel with
    lastCycles := storedCycle channel.lastCycles
    myNextCycle := storedCycle channel.myNextCycle }

def restoredT8 : Timer8 :=
  { saved.t8 with
    ch0 := restoredChannel saved.t8.ch0
    ch1 := restoredChannel saved.t8.ch1
    sound := present.t8.sound }

def restoredButtons : Buttons :=
  { saved.buttons with
    btnState := present.buttons.btnState
    irqpending := saved.buttons.irqpending |||
      (saved.buttons.btnState &&& ~~~present.buttons.btnState &&&
        saved.buttons.iscr &&& 7) }

def restoredLcd : Lcd :=
  { saved.lcd with
    lcdData := fun ptr =>
      if 0 ≤ ptr ∧ ptr < 12 then saved.lcd.lcdData ptr
      else present.lcd.lcdData ptr }

def restoredAd : AdSensors :=
  { saved.ad with
    values := present.ad.values
    polled := fun i =>
      if i < 4 then saved.ad.polled i else present.ad.polled i
    adStartCycle := storedCycle saved.ad.adStartCycle }

def restoredWdog : Watchdog :=
  { saved.wdog with lastCycles := storedCycle saved.wdog.lastCycles }

end Restored

namespace SavedPeripheral

/-- What loading a saved block makes of the present state. -/
def restore (saved : Emulator) (e : Emulator) : SavedPeripheral → Emulator
  | serial =>
      { e with
        machine := { e.machine with
          serial := restoredSerial saved.machine e.machine }
        serStcr := saved.serStcr }
  | periph =>
      { e with
        machine := restoredProcessor saved.machine e.machine
        waitStates := saved.waitStates }
  | t16 =>
      { e with
        machine := { e.machine with
          t16 := restoredT16 saved.machine e.machine } }
  | t8 =>
      { e with
        machine := { e.machine with
          t8 := restoredT8 saved.machine e.machine } }
  | buttons =>
      let buttons := restoredButtons saved.machine e.machine
      { e with
        machine := { e.machine with
          buttons := buttons
          clock := btnCheckNextCycle buttons e.machine.clock } }
  | lcd =>
      let lcd := restoredLcd saved.machine e.machine
      { e with
        machine := { e.machine with
          lcd := lcd, guiOutput := e.machine.guiOutput ++ lcdShow lcd } }
  | ad =>
      { e with
        machine := { e.machine with
          ad := restoredAd saved.machine e.machine } }
  | wdog =>
      { e with
        machine := { e.machine with wdog := restoredWdog saved.machine } }

end SavedPeripheral

theorem toNat_append_bytes32 (cycles : ℕ) :
    ((BitVec.ofNat 32 cycles).extractLsb' 24 8 ++
      (BitVec.ofNat 32 cycles).extractLsb' 16 8 ++
      (BitVec.ofNat 32 cycles).extractLsb' 8 8 ++
      (BitVec.ofNat 32 cycles).extractLsb' 0 8).toNat = storedCycle cycles := by
  rw [append_bytes32, BitVec.toNat_ofNat, storedCycle]

section RoundTrip

variable (buf stale : Buffer) (saved e : Emulator)

theorem t16Load_t16Save :
    t16Load (buf.fill (t16Save stale saved.machine.t16)) e.machine.t16 =
      restoredT16 saved.machine e.machine := by
  have hfrc := append_bytes16 saved.machine.t16.frc
  have hocra := append_bytes16 saved.machine.t16.ocra
  have hocrb := append_bytes16 saved.machine.t16.ocrb
  have hlast := toNat_append_bytes32 saved.machine.t16.myLastCycles
  simp only [t16Load, restoredT16, Timer16.mk.injEq]
  exact ⟨hfrc, hocra, hocrb, rfl, rfl, rfl, rfl, trivial, hlast⟩

theorem t8Load_t8Save :
    t8Load (buf.fill (t8Save stale saved.machine.t8)) e.machine.t8 =
      restoredT8 saved.machine e.machine := by
  have hlast0 := toNat_append_bytes32 saved.machine.t8.ch0.lastCycles
  have hlast1 := toNat_append_bytes32 saved.machine.t8.ch1.lastCycles
  have hnext0 := toNat_append_bytes32 saved.machine.t8.ch0.myNextCycle
  have hnext1 := toNat_append_bytes32 saved.machine.t8.ch1.myNextCycle
  simp only [t8Load, t8LoadChannel, restoredT8, restoredChannel,
    Timer8.mk.injEq, T8Channel.mk.injEq]
  refine ⟨⟨rfl, rfl, rfl, rfl, rfl, rfl, hlast0, hnext0⟩,
    ⟨rfl, rfl, rfl, rfl, rfl, rfl, hlast1, hnext1⟩, rfl, trivial⟩

theorem lcdLoad_lcdSave :
    lcdLoad (buf.fill (lcdSave saved.machine.lcd)) e.machine.lcd =
      restoredLcd saved.machine e.machine := by
  have hdata (ptr : ℤ) (hptr : 0 ≤ ptr ∧ ptr < 12) :
      (buf.fill (lcdSave saved.machine.lcd)) ptr.toNat =
        saved.machine.lcd.lcdData ptr := by
    obtain ⟨i, rfl⟩ := Int.eq_ofNat_of_zero_le hptr.1
    have hi : i < 12 := by omega
    simp [Buffer.fill, lcdSave, List.getElem?_append, hi]
  simp only [lcdLoad, restoredLcd, Lcd.mk.injEq]
  refine ⟨?_, rfl, rfl, rfl, rfl, rfl, rfl, rfl⟩
  funext ptr
  split
  · next hptr => exact hdata ptr hptr
  · rfl

theorem adLoad_adSave :
    adLoad (buf.fill (adSave stale saved.machine.ad)) e.machine.ad =
      restoredAd saved.machine e.machine := by
  have hstart := toNat_append_bytes32 saved.machine.ad.adStartCycle
  have hpolled (i : ℕ) (hi : i < 4) :
      (buf.fill (adSave stale saved.machine.ad)).read16 (8 + 2 * i) =
        saved.machine.ad.polled i := by
    interval_cases i
    · exact append_bytes16 _
    · exact append_bytes16 _
    · exact append_bytes16 _
    · exact append_bytes16 _
  simp only [adLoad, restoredAd, AdSensors.mk.injEq]
  refine ⟨trivial, ?_, rfl, rfl, rfl, rfl, rfl, hstart⟩
  funext i
  split
  · next hi => exact hpolled i hi
  · rfl

theorem wdogLoad_wdogSave :
    wdogLoad (buf.fill (wdogSave stale saved.machine.wdog)) e.machine.wdog =
      restoredWdog saved.machine := by
  have hlast := toNat_append_bytes32 saved.machine.wdog.lastCycles
  simp only [wdogLoad, restoredWdog, Watchdog.mk.injEq]
  exact ⟨rfl, rfl, rfl, rfl, hlast⟩

theorem periphLoad_periphSave :
    periphLoad (buf.fill (periphSave stale saved.waitStates saved.machine))
        e.machine =
      restoredProcessor saved.machine e.machine := by
  let block := buf.fill (periphSave stale saved.waitStates saved.machine)
  have hcycles : block.readCycle 8 = storedCycle saved.machine.clock.cycles :=
    toNat_append_bytes32 _
  have htimer : block.readCycle 16 =
      storedCycle saved.machine.clock.nextTimerCycle :=
    toNat_append_bytes32 _
  have hnmi : block.readCycle 24 =
      storedCycle saved.machine.clock.nextNmiCycle :=
    toNat_append_bytes32 _
  have htrap : (block.read32 32).toNat = storedCycle saved.machine.dbTrap :=
    toNat_append_bytes32 _
  have hpc : block.read16 52 = if saved.machine.sleeping then
      saved.machine.pc - 2 else saved.machine.pc :=
    append_bytes16 _
  have hreg : (fun nr : BitVec 4 => block (36 + nr.toNat)) =
      saved.machine.reg := by
    funext nr
    obtain ⟨i, hi⟩ := nr
    change block (36 + i) = _
    interval_cases i <;> rfl
  change { e.machine with
    reg := fun nr => block (36 + nr.toNat)
    pc := block.read16 52
    ccr := block 54
    syscr := block 55
    clock := ⟨block.readCycle 8, block.readCycle 16, block.readCycle 24⟩
    dbTrap := (block.read32 32).toNat
    sleeping := false
    lastcycles := block.readCycle 8
    lastusecs := 0 } = _
  rw [hreg, hpc, hcycles, htimer, hnmi, htrap]
  rfl

/-- Loading a block that was saved in any buffer restores its peripheral. -/
theorem loadData_saveData (p : SavedPeripheral) :
    p.loadData (buf.fill (p.saveData stale saved)) e = p.restore saved e := by
  cases p with
  | serial => rfl
  | periph =>
      simp only [SavedPeripheral.loadData, SavedPeripheral.saveData,
        SavedPeripheral.restore, periphLoad_periphSave, Emulator.mk.injEq,
        true_and]
      exact ⟨append_bytes32 _, trivial⟩
  | t16 =>
      simp only [SavedPeripheral.loadData, SavedPeripheral.saveData,
        SavedPeripheral.restore, t16Load_t16Save]
  | t8 =>
      simp only [SavedPeripheral.loadData, SavedPeripheral.saveData,
        SavedPeripheral.restore, t8Load_t8Save]
  | buttons => rfl
  | lcd =>
      simp only [SavedPeripheral.loadData, SavedPeripheral.saveData,
        SavedPeripheral.restore, lcdLoad_lcdSave]
  | ad =>
      simp only [SavedPeripheral.loadData, SavedPeripheral.saveData,
        SavedPeripheral.restore, adLoad_adSave]
  | wdog =>
      simp only [SavedPeripheral.loadData, SavedPeripheral.saveData,
        SavedPeripheral.restore, wdogLoad_wdogSave]

end RoundTrip

end BrickEmu
