import BrickEmu.MachineEffects
import BrickEmu.RomSerial
import BrickEmu.Synchronization

/-!
# The display routine of the ROM

`lcd_refresh` and `write_lcd_output` of `rom-lcd.s` on the memory and on the
emulated display.  Between any two instructions interrupts may write the low
three bits of port 6.
-/

namespace BrickEmu

namespace Lcd

/-- `set_port6` for the display. -/
def setPort6 (val : Byte) (lcd : Lcd) : Lcd :=
  if val &&& 0x20 = 0 then { lcd with port6 := val }
  else { (i2cStep val lcd).1 with port6 := val }

/-- The byte that is complete with the ninth clock. -/
def decodes (val : Byte) (lcd : Lcd) : Option Byte :=
  if val &&& 0x20 ≠ 0 ∧ lcd.port6 &&& 0x20 = 0 ∧
      lcd.i2cState.msb = false ∧ ¬ lcd.i2cBitnr + 1 < 8 then
    some lcd.i2cData
  else none

end Lcd

namespace Machine

theorem AccessEffect.lcd_eq {m m' : Machine} (h : AccessEffect m m') :
    m'.lcd = m.lcd := by
  obtain ⟨_, _, _, _, _, _, _, _, _, rfl⟩ := h
  rfl

theorem synchronized_lcd (lcd : Lcd) : Synchronized fun m => m.lcd = lcd where
  pace := fun _ h => h
  arrive := fun _ h => h
  handle := fun m command h => by
    cases command with
    | poke addr val =>
        simp only [handleCommand, debuggerWrite]
        split_ifs <;> exact h
    | setTrap addr kind =>
        simp only [handleCommand, debuggerWrite]
        split_ifs <;> exact h
    | clearTrap addr kind =>
        simp only [handleCommand, debuggerWrite]
        split_ifs <;> exact h
    | _ => exact h
  beginReset := fun _ h => h
  finishReset := fun m h => by
    change m.updateTimes.finishReset.lcd = lcd
    exact (getWordCycles_effect 0 _).lcd_eq.trans h
  reschedule := fun m h => by
    simp only [reschedule]
    exact h

/-- The port of the machine drives the display; a line for the GUI waits for
the peripherals, which leave the display alone. -/
theorem setPort6_lcd (val : Byte) (m : Machine) :
    (m.setPort6 val).lcd = m.lcd.setPort6 val := by
  have hwait (m : Machine) : m.waitPeripherals.lcd = m.lcd :=
    (synchronized_lcd m.lcd).synchronizeTime rfl
  unfold Machine.setPort6 Lcd.setPort6
  by_cases hclock : val &&& 0x20 = 0
  · rw [if_pos hclock, if_pos hclock]
  · rw [if_neg hclock, if_neg hclock]
    simp only
    cases (i2cStep val m.lcd).2 with
    | none =>
        simp only
        split_ifs <;> rfl
    | some message =>
        simp only
        split_ifs <;> exact hwait _

end Machine

namespace Rom

def port6Ddr : Word := 0xffb9
def port6 : Word := 0xffbb
def port6DdrShadow : Word := 0xfd85
def lcdDisplay : Word := 0xef43

/-- The memory and the display, with the bytes decoded so far and the number
of instructions on port 6. -/
structure Board where
  ram : Ram
  lcd : Lcd
  decoded : List Byte
  time : ℕ

namespace Board

def store (addr : Word) (val : Byte) (b : Board) : Board :=
  { b with ram := b.ram.set addr val }

def setPort6 (val : Byte) (b : Board) : Board :=
  { b with
    ram := b.ram.set port6 val
    lcd := b.lcd.setPort6 val
    decoded := b.decoded ++ (b.lcd.decodes val).toList }

def interrupt (b : Board) (bits : BitVec 3) : Board :=
  b.setPort6 ((b.ram port6 &&& 0xf8) ||| bits.setWidth 8)

end Board

section Routine

/- The values that interrupts give the low three bits before an instruction
on port 6. -/
variable (interrupts : ℕ → List (BitVec 3))

def Board.interrupted (b : Board) : Board :=
  (interrupts b.time).foldl Board.interrupt { b with time := b.time + 1 }

def bset (n : ℕ) (b : Board) : Board :=
  let b := b.interrupted interrupts
  b.setPort6 (b.ram port6 ||| ((1 : Byte) <<< n))

def bclr (n : ℕ) (b : Board) : Board :=
  let b := b.interrupted interrupts
  b.setPort6 (b.ram port6 &&& ~~~((1 : Byte) <<< n))

/-- The carry goes to the bit. -/
def bst (n : ℕ) (c : Bool) (b : Board) : Board :=
  if c then bset interrupts n b else bclr interrupts n b

/-- The bits of `r5l` behind the carry, up to the marker. -/
def bitLoop : ℕ → Bool → Byte → Board → Option Board
  | 0, _, _, _ => none
  | fuel + 1, c, r5l, b =>
      let b := bst interrupts 6 c b
      let b := bset interrupts 5 b
      let b := bclr interrupts 5 b
      if r5l <<< 1 ≠ 0 then bitLoop fuel r5l.msb (r5l <<< 1) b else some b

/-- `r6` points to the bytes; the acknowledge bit is clocked, not read. -/
def byteLoop (fuel : ℕ) : ℕ → Word → Board → Option Board
  | 0, _, b => some b
  | count + 1, r6, b => do
      let r5l := b.ram r6
      let b ← bitLoop interrupts fuel r5l.msb (r5l <<< 1 ||| 1) b
      let r5l := b.ram port6DdrShadow &&& ~~~0x40
      let b := b.store port6Ddr r5l
      let b := bset interrupts 5 b
      let b := bclr interrupts 5 b
      let b := b.store port6Ddr (r5l ||| 0x40)
      byteLoop fuel count (r6 + 1) b

def writeLcdOutput (fuel : ℕ) (r6 : Word) (r5h : Byte) (b : Board) :
    Option Board := do
  let r5l := b.ram port6DdrShadow ||| 0x60
  let b := b.store port6Ddr r5l
  let b := b.store port6DdrShadow r5l
  let b := bset interrupts 6 b
  let b := bset interrupts 5 b
  let b := bclr interrupts 6 b
  let b := bclr interrupts 5 b
  let b ← byteLoop interrupts fuel (if r5h = 0 then 256 else r5h.toNat) r6 b
  let b := bclr interrupts 6 b
  let b := bset interrupts 5 b
  return bset interrupts 6 b

/-- The result stands in `r6l`. -/
def lcdRefresh (fuel : ℕ) (b : Board) : Option (Byte × Board) := do
  let b := b.store (lcdDisplay - 1) 0x00
  let b := b.store (lcdDisplay - 2) 0xe0
  let b := b.store (lcdDisplay - 3) 0xc8
  let b := b.store (lcdDisplay - 4) 0x7c
  let b ← writeLcdOutput interrupts fuel (lcdDisplay - 4) 13 b
  return (0, b)

end Routine

end Rom

end BrickEmu
