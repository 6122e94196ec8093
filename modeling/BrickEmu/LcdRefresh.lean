import BrickEmu.RomLcd

/-!
# The display shows what the ROM writes

The bus sees the clock and the data line of port 6 only.  On these lines the
routine of the ROM sends a start, the bytes with an acknowledge clock after
each, and a stop.
-/

namespace BrickEmu

namespace Lcd

section Lines

theorem data_zero_iff (p : Byte) :
    p &&& 0x40 = 0 ↔ p.getLsbD 6 = false := by
  revert p
  decide

/-- The display with nothing but the two lines of the bus. -/
def lines (lcd : Lcd) : Lcd :=
  { lcd with port6 := lcd.port6 &&& 0x60 }

variable {lcd : Lcd} {val : Byte}

theorem lines_clock (p : Byte) : p &&& 0x60 &&& 0x20 = p &&& 0x20 := by
  rw [BitVec.and_assoc]
  rfl

theorem lines_falls (p val : Byte) :
    (p &&& 0x60) &&& ~~~(val &&& 0x60) &&& 0x40 ≠ 0 ↔
      p &&& ~~~val &&& 0x40 ≠ 0 := by
  rw [ne_eq, ne_eq, data_zero_iff, data_zero_iff]
  simp

theorem lines_rises (p val : Byte) :
    ~~~(p &&& 0x60) &&& (val &&& 0x60) &&& 0x40 ≠ 0 ↔
      ~~~p &&& val &&& 0x40 ≠ 0 := by
  rw [ne_eq, ne_eq, data_zero_iff, data_zero_iff]
  simp

theorem lines_bit (val : Byte) :
    ((val &&& 0x60) + (val &&& 0x60)) &&& 0x80 = (val + val) &&& 0x80 := by
  revert val
  decide

theorem lcdDisplay_eq (ptr : ℤ) (data : Byte) (lcd : Lcd) :
    (lcdDisplay ptr data lcd).1 =
      { lcd with lcdData := Function.update lcd.lcdData ptr data } := by
  unfold lcdDisplay
  split_ifs with hsame
  · rw [← hsame, Function.update_eq_self]
  · rfl

theorem i2cByte_lines (lcd : Lcd) :
    (i2cByte lcd.lines).1 = (i2cByte lcd).1.lines := by
  have hstate : lcd.lines.i2cState = lcd.i2cState := rfl
  unfold i2cByte
  rw [hstate]
  by_cases h0 : lcd.i2cState = 0
  · rw [if_pos h0, if_pos h0]
    rfl
  · rw [if_neg h0, if_neg h0]
    by_cases h1 : lcd.i2cState = 1
    · rw [if_pos h1, if_pos h1]
      have hdata : lcd.lines.i2cData = lcd.i2cData := rfl
      simp only [hdata]
      split <;> rfl
    · rw [if_neg h1, if_neg h1]
      by_cases h2 : lcd.i2cState = 2
      · rw [if_pos h2, if_pos h2]
        by_cases hsub : lcd.lcdSubaddr = 0
        · rw [if_pos hsub, if_pos (by exact hsub)]
          simp only [lcdDisplay_eq]
          rfl
        · rw [if_neg hsub, if_neg (by exact hsub)]
      · rw [if_neg h2, if_neg h2]

theorem i2cStep_lines (val : Byte) (lcd : Lcd) :
    (i2cStep (val &&& 0x60) lcd.lines).1 = (i2cStep val lcd).1.lines := by
  have hclock : lcd.lines.port6 &&& 0x20 = lcd.port6 &&& 0x20 :=
    lines_clock lcd.port6
  have hend (lcd : Lcd) :
      ({ (i2cByte lcd.lines).1 with i2cBitnr := 0xff, i2cData := 0 } : Lcd) =
        ({ (i2cByte lcd).1 with i2cBitnr := 0xff, i2cData := 0 } : Lcd).lines := by
    rw [i2cByte_lines]
    rfl
  unfold i2cStep
  by_cases hrise : lcd.port6 &&& 0x20 = 0 ∧ lcd.i2cState.msb = false
  · rw [if_pos hrise, if_pos ⟨hclock.trans hrise.1, hrise.2⟩]
    simp only [lines_bit]
    by_cases hbit : lcd.i2cBitnr + 1 < 8
    · rw [if_pos hbit, if_pos (by exact hbit)]
      rfl
    · rw [if_neg hbit, if_neg (by exact hbit)]
      exact hend { lcd with i2cBitnr := lcd.i2cBitnr + 1 }
  · rw [if_neg hrise,
      if_neg (fun hrise' => hrise ⟨hclock.symm.trans hrise'.1, hrise'.2⟩)]
    have hfalls : lcd.lines.port6 &&& ~~~(val &&& 0x60) &&& 0x40 ≠ 0 ↔
        lcd.port6 &&& ~~~val &&& 0x40 ≠ 0 := lines_falls lcd.port6 val
    have hrises : ~~~lcd.lines.port6 &&& (val &&& 0x60) &&& 0x40 ≠ 0 ↔
        ~~~lcd.port6 &&& val &&& 0x40 ≠ 0 := lines_rises lcd.port6 val
    by_cases hfall : lcd.port6 &&& ~~~val &&& 0x40 ≠ 0
    · rw [if_pos hfall, if_pos (hfalls.mpr hfall)]
      rfl
    · rw [if_neg hfall, if_neg (fun hfall' => hfall (hfalls.mp hfall'))]
      by_cases hup : ~~~lcd.port6 &&& val &&& 0x40 ≠ 0
      · rw [if_pos hup, if_pos (hrises.mpr hup)]
        rfl
      · rw [if_neg hup, if_neg (fun hup' => hup (hrises.mp hup'))]

/-- Only the two lines count for the bus. -/
theorem setPort6_lines (val : Byte) (lcd : Lcd) :
    (lcd.setPort6 val).lines = lcd.lines.setPort6 (val &&& 0x60) := by
  unfold setPort6
  rw [lines_clock, i2cStep_lines]
  split_ifs <;> rfl

theorem decodes_lines (val : Byte) (lcd : Lcd) :
    lcd.lines.decodes (val &&& 0x60) = lcd.decodes val := by
  have hport : lcd.lines.port6 = lcd.port6 &&& 0x60 := rfl
  unfold decodes
  rw [hport, lines_clock, lines_clock]
  rfl

/-- Writing the lines again does nothing. -/
theorem setPort6_same (lcd : Lcd) : lcd.setPort6 lcd.port6 = lcd := by
  unfold setPort6
  split_ifs with hclock
  · rfl
  · have hsame : ¬ lcd.port6 &&& ~~~lcd.port6 &&& 0x40 ≠ 0 := by simp
    have hsame' : ¬ ~~~lcd.port6 &&& lcd.port6 &&& 0x40 ≠ 0 := by
      rw [BitVec.and_comm (~~~lcd.port6)]
      exact hsame
    rw [i2cStep, if_neg (fun hrise => hclock hrise.1), if_neg hsame,
      if_neg hsame']

theorem decodes_same (lcd : Lcd) : lcd.decodes lcd.port6 = none :=
  if_neg fun h => h.1 h.2.1

end Lines

end Lcd

namespace Rom

/-- The display on the two lines, with the bytes decoded. -/
@[ext]
structure Bus where
  lcd : Lcd
  decoded : List Byte

def Bus.drive (val : Byte) (bus : Bus) : Bus where
  lcd := bus.lcd.setPort6 val
  decoded := bus.decoded ++ (bus.lcd.decodes val).toList

def Board.bus (b : Board) : Bus where
  lcd := b.lcd.lines
  decoded := b.decoded

section Simulation

/-- Reading the port gives what was written. -/
def Board.Agrees (b : Board) : Prop :=
  b.ram port6 = b.lcd.port6

theorem Board.setPort6_bus (val : Byte) (b : Board) :
    (b.setPort6 val).bus = b.bus.drive (val &&& 0x60) := by
  apply Bus.ext
  · exact Lcd.setPort6_lines val b.lcd
  · change b.decoded ++ _ = b.decoded ++ (b.lcd.lines.decodes _).toList
    rw [Lcd.decodes_lines]

theorem Board.setPort6_agrees (val : Byte) (b : Board) :
    (b.setPort6 val).Agrees := by
  have hport : (b.lcd.setPort6 val).port6 = val := by
    unfold Lcd.setPort6
    split_ifs <;> rfl
  change (b.ram.set port6 val) port6 = (b.lcd.setPort6 val).port6
  rw [Ram.set_self, hport]

theorem lines_lowBits (p : Byte) (bits : BitVec 3) :
    ((p &&& 0xf8) ||| bits.setWidth 8) &&& 0x60 = p &&& 0x60 := by
  revert p bits
  decide +kernel

/-- The header and the contents of the display in the memory. -/
def InDisplay (addr : Word) : Prop :=
  0xef3f ≤ addr.toNat ∧ addr.toNat < 0xef4c

instance (addr : Word) : Decidable (InDisplay addr) :=
  inferInstanceAs (Decidable (_ ∧ _))

/-- The bus is brought to a state, and the contents to be shown are kept. -/
structure Reaches (bus : Bus) (b b' : Board) : Prop where
  bus : b'.bus = bus
  agrees : b'.Agrees
  display : ∀ addr, InDisplay addr → b'.ram addr = b.ram addr

theorem Reaches.trans {bus bus' : Bus} {b b' b'' : Board}
    (h : Reaches bus b b') (h' : Reaches bus' b' b'') :
    Reaches bus' b b'' where
  bus := h'.bus
  agrees := h'.agrees
  display addr haddr := (h'.display addr haddr).trans (h.display addr haddr)

theorem reaches_set {b : Board} {a : Word} (ha : ¬ InDisplay a) (val : Byte) :
    ∀ addr, InDisplay addr → (b.ram.set a val) addr = b.ram addr := by
  intro addr haddr
  apply Ram.set_of_ne
  rintro rfl
  exact ha haddr

theorem reaches_store {b : Board} (h : b.Agrees) {addr : Word}
    (hport : port6 ≠ addr) (haddr : ¬ InDisplay addr) (val : Byte) :
    Reaches b.bus b (b.store addr val) where
  bus := rfl
  agrees := (Ram.set_of_ne hport).trans h
  display := reaches_set haddr val

theorem reaches_setPort6 (val : Byte) (b : Board) :
    Reaches (b.bus.drive (val &&& 0x60)) b (b.setPort6 val) where
  bus := b.setPort6_bus val
  agrees := b.setPort6_agrees val
  display := reaches_set (by decide) val

theorem Bus.drive_same (bus : Bus) : bus.drive bus.lcd.port6 = bus := by
  apply Bus.ext
  · exact Lcd.setPort6_same bus.lcd
  · change bus.decoded ++ (bus.lcd.decodes bus.lcd.port6).toList = _
    rw [Lcd.decodes_same]
    exact List.append_nil _

theorem reaches_interrupt {b : Board} (h : b.Agrees) (bits : BitVec 3) :
    Reaches b.bus b (b.interrupt bits) := by
  have hreaches := reaches_setPort6
    ((b.ram port6 &&& 0xf8) ||| bits.setWidth 8) b
  have hsame : b.ram port6 &&& 0x60 = b.bus.lcd.port6 := by
    rw [h]
    rfl
  rw [lines_lowBits, hsame, Bus.drive_same] at hreaches
  exact hreaches

theorem reaches_interrupts (all : List (BitVec 3)) {b : Board}
    (h : b.Agrees) : Reaches b.bus b (all.foldl Board.interrupt b) := by
  induction all generalizing b with
  | nil => exact ⟨rfl, h, fun _ _ => rfl⟩
  | cons bits all ih =>
      have hfirst := reaches_interrupt h bits
      have hrest := ih hfirst.agrees
      rw [hfirst.bus] at hrest
      exact hfirst.trans hrest

variable (interrupts : ℕ → List (BitVec 3))

theorem reaches_interrupted {b : Board} (h : b.Agrees) :
    Reaches b.bus b (b.interrupted interrupts) := by
  have hall := reaches_interrupts (interrupts b.time)
    (show ({ b with time := b.time + 1 } : Board).Agrees from h)
  exact ⟨hall.bus, hall.agrees, hall.display⟩

/-- An instruction on the port drives the lines, whatever the interrupts
before it. -/
theorem reaches_change {b : Board} (h : b.Agrees) (change : Byte → Byte)
    (hlines : ∀ p, change p &&& 0x60 = change (p &&& 0x60) &&& 0x60) :
    Reaches (b.bus.drive (change b.bus.lcd.port6 &&& 0x60)) b
      (let b := b.interrupted interrupts
       b.setPort6 (change (b.ram port6))) := by
  have hquiet := reaches_interrupted interrupts h
  have hset := reaches_setPort6
    (change ((b.interrupted interrupts).ram port6)) (b.interrupted interrupts)
  have hport : change (b.interrupted interrupts).lcd.port6 &&& 0x60 =
      change b.bus.lcd.port6 &&& 0x60 := by
    rw [hlines, ← hquiet.bus]
    rfl
  rw [hquiet.bus, hquiet.agrees, hport] at hset
  rw [← hquiet.agrees] at hset
  exact hquiet.trans hset

end Simulation

section Bits

variable (interrupts : ℕ → List (BitVec 3)) {b : Board}

theorem reaches_bset (h : b.Agrees) {n : ℕ} (hn : n < 8) {p q : Byte}
    (hq : b.bus.lcd.port6 = q) (hp : (q ||| ((1 : Byte) <<< n)) &&& 0x60 = p) :
    Reaches (b.bus.drive p) b (bset interrupts n b) := by
  have hlines : ∀ n : Fin 8, ∀ p : Byte,
      (p ||| ((1 : Byte) <<< n.val)) &&& 0x60 =
        (p &&& 0x60 ||| ((1 : Byte) <<< n.val)) &&& 0x60 := by
    decide +kernel
  rw [← hp, ← hq]
  exact reaches_change interrupts h (· ||| ((1 : Byte) <<< n)) (hlines ⟨n, hn⟩)

theorem reaches_bclr (h : b.Agrees) {n : ℕ} (hn : n < 8) {p q : Byte}
    (hq : b.bus.lcd.port6 = q)
    (hp : (q &&& ~~~((1 : Byte) <<< n)) &&& 0x60 = p) :
    Reaches (b.bus.drive p) b (bclr interrupts n b) := by
  have hlines : ∀ n : Fin 8, ∀ p : Byte,
      (p &&& ~~~((1 : Byte) <<< n.val)) &&& 0x60 =
        (p &&& 0x60 &&& ~~~((1 : Byte) <<< n.val)) &&& 0x60 := by
    decide +kernel
  rw [← hp, ← hq]
  exact reaches_change interrupts h (· &&& ~~~((1 : Byte) <<< n))
    (hlines ⟨n, hn⟩)

/-- The data line, with the clock low. -/
def level (c : Bool) : Byte :=
  if c then 0x40 else 0

def Bus.withLines (bus : Bus) (p : Byte) : Bus :=
  { bus with lcd := { bus.lcd with port6 := p } }

theorem level_clock (c : Bool) : level c &&& 0x20 = 0 := by
  revert c
  decide

theorem Bus.drive_low (bus : Bus) {val : Byte} (hclock : val &&& 0x20 = 0) :
    bus.drive val = bus.withLines val := by
  apply Bus.ext
  · exact if_pos hclock
  · change bus.decoded ++ (bus.lcd.decodes val).toList = _
    rw [Lcd.decodes, if_neg fun h => h.1 hclock]
    exact List.append_nil _

/-- The data line is set while the clock is low. -/
theorem reaches_bst (h : b.Agrees) (c d : Bool)
    (hport : b.bus.lcd.port6 = level d) :
    Reaches (b.bus.withLines (level c)) b (bst interrupts 6 c b) := by
  rw [← Bus.drive_low _ (level_clock c)]
  cases c with
  | false =>
      apply reaches_bclr interrupts h (by decide) hport
      cases d <;> decide
  | true =>
      apply reaches_bset interrupts h (by decide) hport
      cases d <;> decide

theorem Bus.drive_port6 (val : Byte) (bus : Bus) :
    (bus.drive val).lcd.port6 = val := by
  change (bus.lcd.setPort6 val).port6 = val
  unfold Lcd.setPort6
  split_ifs <;> rfl

/-- The clock goes up and down again. -/
theorem reaches_clock (h : b.Agrees) (c : Bool)
    (hport : b.bus.lcd.port6 = level c) :
    Reaches ((b.bus.drive (level c ||| 0x20)).withLines (level c)) b
      (bclr interrupts 5 (bset interrupts 5 b)) := by
  have hset : Reaches (b.bus.drive (level c ||| 0x20)) b
      (bset interrupts 5 b) := by
    apply reaches_bset interrupts h (by decide) hport
    cases c <;> decide
  have hclear : Reaches ((bset interrupts 5 b).bus.drive (level c))
      (bset interrupts 5 b) (bclr interrupts 5 (bset interrupts 5 b)) := by
    apply reaches_bclr interrupts hset.agrees (by decide)
      (by rw [hset.bus, Bus.drive_port6])
    cases c <;> decide
  rw [Bus.drive_low _ (level_clock c), hset.bus] at hclear
  exact hset.trans hclear

/-- A bit is read with the rising clock. -/
theorem drive_bit (bus : Bus) (c : Bool) (hport : bus.lcd.port6 = level c)
    (hstate : bus.lcd.i2cState.msb = false)
    (hbit : bus.lcd.i2cBitnr + 1 < 8) :
    bus.drive (level c ||| 0x20) =
      { bus with
        lcd := { bus.lcd with
          i2cBitnr := bus.lcd.i2cBitnr + 1
          i2cData := bus.lcd.i2cData |||
            ((if c then 0x80#8 else 0) >>> (bus.lcd.i2cBitnr + 1).toNat)
          port6 := level c ||| 0x20 } } := by
  have hlow : bus.lcd.port6 &&& 0x20 = 0 := by
    rw [hport]
    exact level_clock c
  have hup : ¬ (level c ||| 0x20) &&& 0x20 = 0 := by
    cases c <;> decide
  have hdata : ((level c ||| 0x20) + (level c ||| 0x20)) &&& 0x80 =
      if c then 0x80#8 else 0 := by
    cases c <;> rfl
  apply Bus.ext
  · change Lcd.setPort6 _ _ = _
    rw [Lcd.setPort6, if_neg hup, i2cStep, if_pos ⟨hlow, hstate⟩]
    simp only [if_pos hbit, hdata]
  · change bus.decoded ++ (bus.lcd.decodes _).toList = _
    rw [Lcd.decodes, if_neg fun h => h.2.2.2 hbit]
    exact List.append_nil _

/-- The ninth clock completes the byte. -/
theorem drive_byte (bus : Bus) (c : Bool) (hport : bus.lcd.port6 = level c)
    (hstate : bus.lcd.i2cState.msb = false)
    (hbit : ¬ bus.lcd.i2cBitnr + 1 < 8) :
    bus.drive (level c ||| 0x20) =
      { lcd := { (i2cByte { bus.lcd with
            i2cBitnr := bus.lcd.i2cBitnr + 1 }).1 with
          i2cBitnr := 0xff
          i2cData := 0
          port6 := level c ||| 0x20 }
        decoded := bus.decoded ++ [bus.lcd.i2cData] } := by
  have hlow : bus.lcd.port6 &&& 0x20 = 0 := by
    rw [hport]
    exact level_clock c
  have hup : ¬ (level c ||| 0x20) &&& 0x20 = 0 := by
    cases c <;> decide
  apply Bus.ext
  · change Lcd.setPort6 _ _ = _
    rw [Lcd.setPort6, if_neg hup, i2cStep, if_pos ⟨hlow, hstate⟩]
    simp only [if_neg hbit]
  · change bus.decoded ++ (bus.lcd.decodes _).toList = _
    rw [Lcd.decodes, if_pos ⟨hup, hlow, hstate, hbit⟩]
    rfl

/-- The first bits of a byte. -/
def bitsBefore (k : ℕ) (byte : Byte) : Byte :=
  byte &&& ~~~(0xff#8 >>> k)

theorem bitsBefore_succ (k : Fin 8) (byte : Byte) :
    bitsBefore k byte |||
        ((if byte.getLsbD (7 - k) then 0x80#8 else 0) >>> k.val) =
      bitsBefore (k + 1) byte := by
  revert k byte
  decide +kernel

/-- The marker behind the bits ends the loop. -/
theorem marker_shift (k : Fin 8) (byte : Byte) :
    (byte <<< 1 ||| 1) <<< k.val <<< 1 ≠ 0 ↔ k.val < 7 := by
  revert k byte
  decide +kernel

theorem marker_carry (k : Fin 7) (byte : Byte) :
    ((byte <<< 1 ||| 1) <<< k.val).msb = byte.getLsbD (7 - (k + 1)) := by
  revert k byte
  decide +kernel

/-- Some bits of a byte have been read. -/
def Bus.reading (bus : Bus) (k : ℕ) (byte : Byte) (c : Bool) : Bus :=
  { bus with
    lcd := { bus.lcd with
      i2cBitnr := BitVec.ofNat 8 (k + 255)
      i2cData := bitsBefore k byte
      port6 := level c } }

theorem reading_clock (bus : Bus) (hstate : bus.lcd.i2cState.msb = false)
    (k : Fin 8) (byte : Byte) :
    (((bus.reading k byte (byte.getLsbD (7 - k))).drive
        (level (byte.getLsbD (7 - k)) ||| 0x20)).withLines
          (level (byte.getLsbD (7 - k)))) =
      bus.reading (k + 1) byte (byte.getLsbD (7 - k)) := by
  have hnext : BitVec.ofNat 8 (k + 255) + 1 = BitVec.ofNat 8 k := by
    revert k
    decide
  have hlt : BitVec.ofNat 8 k < 8 := by
    revert k
    decide
  have htoNat : (BitVec.ofNat 8 k).toNat = k := by
    revert k
    decide
  have hsum : BitVec.ofNat 8 (k + 1 + 255) = BitVec.ofNat 8 k := by
    revert k
    decide
  rw [drive_bit]
  · simp only [Bus.reading, Bus.withLines, hnext, htoNat, hsum,
      bitsBefore_succ]
  · rfl
  · exact hstate
  · change BitVec.ofNat 8 (k + 255) + 1 < 8
    rw [hnext]
    exact hlt

/-- The instructions for one bit. -/
theorem reaches_bit (bus : Bus) (hstate : bus.lcd.i2cState.msb = false)
    (byte : Byte) (k : Fin 8) (d : Bool) (h : b.Agrees)
    (hbus : b.bus = bus.reading k byte d) :
    Reaches (bus.reading (k + 1) byte (byte.getLsbD (7 - k))) b
      (bclr interrupts 5 (bset interrupts 5
        (bst interrupts 6 (byte.getLsbD (7 - k)) b))) := by
  have hport : b.bus.lcd.port6 = level d := by
    rw [hbus]
    rfl
  have hdata := reaches_bst interrupts h (byte.getLsbD (7 - k)) d hport
  have hclock := reaches_clock interrupts hdata.agrees (byte.getLsbD (7 - k))
    (by rw [hdata.bus]; rfl)
  have hlines : b.bus.withLines (level (byte.getLsbD (7 - k))) =
      bus.reading k byte (byte.getLsbD (7 - k)) := by
    rw [hbus]
    rfl
  rw [hdata.bus, hlines, reading_clock bus hstate] at hclock
  exact hdata.trans hclock

theorem bitLoop_reaches (bus : Bus) (hstate : bus.lcd.i2cState.msb = false)
    (byte : Byte) (n k : ℕ) (hk : k + n = 7) (d : Bool) (fuel : ℕ)
    (hfuel : n < fuel) (h : b.Agrees) (hbus : b.bus = bus.reading k byte d) :
    ∃ b', bitLoop interrupts fuel (byte.getLsbD (7 - k))
        ((byte <<< 1 ||| 1) <<< k) b = some b' ∧
      Reaches (bus.reading 8 byte (byte.getLsbD 0)) b b' := by
  induction n generalizing k d fuel b with
  | zero =>
      obtain ⟨fuel, rfl⟩ : ∃ fuel', fuel = fuel' + 1 := ⟨fuel - 1, by omega⟩
      obtain rfl : k = 7 := by omega
      have hbit := reaches_bit interrupts bus hstate byte 7 d h hbus
      refine ⟨_, ?_, hbit⟩
      have hlast : ¬ (byte <<< 1 ||| 1) <<< 7 <<< 1 ≠ 0 := fun hne =>
        absurd ((marker_shift 7 byte).mp hne) (by decide)
      simp only [bitLoop]
      rw [if_neg hlast]
      rfl
  | succ n ih =>
      obtain ⟨fuel, rfl⟩ : ∃ fuel', fuel = fuel' + 1 := ⟨fuel - 1, by omega⟩
      have hlt : k < 7 := by omega
      have hbit := reaches_bit interrupts bus hstate byte ⟨k, by omega⟩ d h hbus
      obtain ⟨b', hloop, hreaches⟩ := ih (k + 1) (by omega) _ fuel (by omega)
        hbit.agrees hbit.bus
      refine ⟨b', ?_, hbit.trans hreaches⟩
      have hmore := (marker_shift ⟨k, by omega⟩ byte).mpr hlt
      have hcarry := marker_carry ⟨k, hlt⟩ byte
      simp only [bitLoop]
      rw [if_pos hmore, hcarry, ← BitVec.shiftLeft_add]
      exact hloop

end Bits

section Bytes

variable (interrupts : ℕ → List (BitVec 3)) {b : Board}

/-- The bus is ready for a byte. -/
structure Bus.Ready (bus : Bus) : Prop where
  state : bus.lcd.i2cState.msb = false
  bitnr : bus.lcd.i2cBitnr = 0xff
  data : bus.lcd.i2cData = 0
  clock : ∃ c, bus.lcd.port6 = level c

/-- A byte is taken by the display. -/
def Bus.take (bus : Bus) (byte : Byte) : Bus where
  lcd := { (i2cByte { bus.lcd with
      i2cBitnr := 8
      i2cData := byte
      port6 := level (byte.getLsbD 0) }).1 with
    i2cBitnr := 0xff
    i2cData := 0
    port6 := level (byte.getLsbD 0) }
  decoded := bus.decoded ++ [byte]

theorem Bus.Ready.reading {bus : Bus} (h : bus.Ready) (byte : Byte) :
    ∃ c, bus = bus.reading 0 byte c := by
  obtain ⟨c, hc⟩ := h.clock
  refine ⟨c, ?_⟩
  have hnone : bitsBefore 0 byte = 0 := by
    revert byte
    decide
  rw [Bus.reading, hnone, ← hc, ← h.data]
  have hbitnr : BitVec.ofNat 8 (0 + 255) = bus.lcd.i2cBitnr := h.bitnr.symm
  rw [hbitnr]

theorem acknowledge (bus : Bus) (hstate : bus.lcd.i2cState.msb = false)
    (byte : Byte) :
    ((bus.reading 8 byte (byte.getLsbD 0)).drive
      (level (byte.getLsbD 0) ||| 0x20)).withLines (level (byte.getLsbD 0)) =
        bus.take byte := by
  have hall : bitsBefore 8 byte = byte := by
    revert byte
    decide
  have hnine : BitVec.ofNat 8 (8 + 255) + 1 = 8 := by decide
  rw [drive_byte]
  · simp only [Bus.reading, Bus.withLines, Bus.take, hall, hnine]
  · rfl
  · exact hstate
  · change ¬ BitVec.ofNat 8 (8 + 255) + 1 < 8
    rw [hnine]
    decide

/-- The bytes to be sent lie in the memory. -/
inductive DisplayAt (ram : Ram) : Word → List Byte → Prop
  | nil (addr : Word) : DisplayAt ram addr []
  | cons {addr : Word} {bytes : List Byte} (hin : InDisplay addr)
      (h : DisplayAt ram (addr + 1) bytes) :
      DisplayAt ram addr (ram addr :: bytes)

theorem DisplayAt.congr {ram ram' : Ram} {addr : Word} {bytes : List Byte}
    (h : DisplayAt ram addr bytes)
    (hsame : ∀ addr, InDisplay addr → ram' addr = ram addr) :
    DisplayAt ram' addr bytes := by
  induction h with
  | nil addr => exact .nil addr
  | cons hin h ih =>
      rw [← hsame _ hin]
      exact .cons hin ih

/-- The display stays ready while it takes the bytes. -/
def Bus.ReadyFor : List Byte → Bus → Prop
  | [], _ => True
  | byte :: bytes, bus => bus.Ready ∧ (bus.take byte).ReadyFor bytes

theorem byteLoop_succ {fuel : ℕ} (hfuel : 8 ≤ fuel) (count : ℕ) (r6 : Word)
    (h : b.Agrees) (hready : b.bus.Ready) :
    ∃ b', byteLoop interrupts fuel (count + 1) r6 b =
        byteLoop interrupts fuel count (r6 + 1) b' ∧
      Reaches (b.bus.take (b.ram r6)) b b' := by
  obtain ⟨c, hreading⟩ := hready.reading (b.ram r6)
  obtain ⟨b₁, hloop, hbits⟩ := bitLoop_reaches interrupts b.bus hready.state
    (b.ram r6) 7 0 rfl c fuel (by omega) h hreading
  have hstart : (b.ram r6).getLsbD (7 - 0) = (b.ram r6).msb := by
    generalize b.ram r6 = byte
    revert byte
    decide
  rw [hstart, BitVec.shiftLeft_zero] at hloop
  have hinput := reaches_store hbits.agrees (by decide : port6 ≠ port6Ddr)
    (by decide) (b₁.ram port6DdrShadow &&& ~~~0x40)
  have hclock := reaches_clock interrupts hinput.agrees
    ((b.ram r6).getLsbD 0) (by rw [hinput.bus, hbits.bus]; rfl)
  rw [hinput.bus, hbits.bus, acknowledge _ hready.state] at hclock
  have houtput := reaches_store hclock.agrees (by decide : port6 ≠ port6Ddr)
    (by decide) ((b₁.ram port6DdrShadow &&& ~~~0x40) ||| 0x40)
  rw [hclock.bus] at houtput
  refine ⟨_, ?_, ((hbits.trans hinput).trans hclock).trans houtput⟩
  rw [byteLoop, hloop]
  rfl

/-- The bytes that the loop sends, one after the other. -/
theorem byteLoop_reaches {fuel : ℕ} (hfuel : 8 ≤ fuel) {bytes : List Byte}
    {r6 : Word} (h : b.Agrees) (hready : b.bus.ReadyFor bytes)
    (hbytes : DisplayAt b.ram r6 bytes) :
    ∃ b', byteLoop interrupts fuel bytes.length r6 b = some b' ∧
      Reaches (bytes.foldl Bus.take b.bus) b b' := by
  induction bytes generalizing r6 b with
  | nil => exact ⟨b, rfl, ⟨rfl, h, fun _ _ => rfl⟩⟩
  | cons byte bytes ih =>
      cases hbytes with
      | cons hin hbytes =>
          obtain ⟨b₁, hloop, hbyte⟩ := byteLoop_succ interrupts hfuel
            bytes.length r6 h hready.1
          have hrest : b₁.bus.ReadyFor bytes := by
            rw [hbyte.bus]
            exact hready.2
          obtain ⟨b', hloop', hreaches⟩ := ih hbyte.agrees hrest
            (hbytes.congr hbyte.display)
          rw [hbyte.bus] at hreaches
          refine ⟨b', ?_, hbyte.trans hreaches⟩
          rw [List.length_cons, hloop, hloop']

end Bytes

section Frame

variable (interrupts : ℕ → List (BitVec 3)) {b : Board}

/-- An idle bus waits for the data line to fall. -/
theorem Bus.drive_idle (bus : Bus) (hidle : bus.lcd.i2cState = 0xff)
    {val : Byte} (hfall : ¬ bus.lcd.port6 &&& ~~~val &&& 0x40 ≠ 0) :
    bus.drive val = bus.withLines val := by
  have hmsb : ¬ bus.lcd.i2cState.msb = false := by
    rw [hidle]
    decide
  apply Bus.ext
  · change bus.lcd.setPort6 val = { bus.lcd with port6 := val }
    unfold Lcd.setPort6
    split_ifs with hclock
    · rfl
    · rw [i2cStep, if_neg (fun hrise => hmsb hrise.2), if_neg hfall]
      split_ifs
      · simp only [← hidle]
      · rfl
  · change bus.decoded ++ (bus.lcd.decodes val).toList = _
    rw [Lcd.decodes, if_neg fun h => hmsb h.2.2.1]
    exact List.append_nil _

/-- The start condition. -/
def Bus.started (bus : Bus) : Bus :=
  { bus with
    lcd := { bus.lcd with
      i2cState := 0
      i2cBitnr := 0xff
      i2cData := 0
      port6 := 0 } }

theorem drive_start (bus : Bus) (hport : bus.lcd.port6 = 0x60) :
    (bus.drive 0x20).withLines 0 = bus.started := by
  apply Bus.ext
  · change ({ bus.lcd.setPort6 0x20 with port6 := 0 } : Lcd) = _
    rw [Lcd.setPort6, if_neg (by decide), i2cStep,
      if_neg (fun hrise => absurd hrise.1 (by rw [hport]; decide)),
      if_pos (by rw [hport]; decide)]
    rfl
  · change bus.decoded ++ (bus.lcd.decodes 0x20).toList = _
    rw [Lcd.decodes, if_neg fun h => absurd h.2.1 (by rw [hport]; decide)]
    exact List.append_nil _

theorem reaches_start (h : b.Agrees) (hidle : b.bus.lcd.i2cState = 0xff) :
    Reaches b.bus.started b (bclr interrupts 5 (bclr interrupts 6
      (bset interrupts 5 (bset interrupts 6 b)))) := by
  let p := (b.bus.lcd.port6 ||| ((1 : Byte) <<< 6)) &&& 0x60
  have hfall : ∀ q : Byte, ¬ q &&& ~~~((q ||| ((1 : Byte) <<< 6)) &&& 0x60) &&&
      0x40 ≠ 0 := by decide
  have hboth : ∀ q : Byte, ((q ||| ((1 : Byte) <<< 6)) &&& 0x60 |||
      ((1 : Byte) <<< 5)) &&& 0x60 = 0x60 := by decide
  have hhigh : ∀ q : Byte, ¬ q &&& ~~~0x60 &&& 0x40 ≠ 0 := by decide
  have hdata := reaches_bset interrupts h (by decide : 6 < 8) rfl rfl
  rw [Bus.drive_idle _ hidle (hfall _)] at hdata
  have hclock := reaches_bset interrupts hdata.agrees (by decide : 5 < 8)
    (by rw [hdata.bus]; rfl) (hboth b.bus.lcd.port6)
  rw [hdata.bus, Bus.drive_idle (b.bus.withLines p) hidle (hhigh p)] at hclock
  have hstart := reaches_bclr interrupts hclock.agrees (by decide : 6 < 8)
    (p := 0x20) (q := 0x60) (by rw [hclock.bus]; rfl) (by decide)
  have hlow := reaches_bclr interrupts hstart.agrees (by decide : 5 < 8)
    (p := 0) (by rw [hstart.bus, Bus.drive_port6]) (by decide)
  rw [Bus.drive_low _ (by decide), hstart.bus, drive_start _
    (by rw [hclock.bus]; rfl), hclock.bus] at hlow
  exact ((hdata.trans hclock).trans hstart).trans hlow

/-- The bus after the stop condition. -/
def Bus.stopped (bus : Bus) : Bus :=
  { bus with
    lcd := { bus.lcd with
      i2cState := 0xff
      i2cBitnr := 0
      i2cData := 0
      port6 := 0x60 } }

theorem drive_stop (bus : Bus) (hport : bus.lcd.port6 = 0x20) :
    bus.drive 0x60 =
      { bus with lcd := { bus.lcd with i2cState := 0xff, port6 := 0x60 } } := by
  apply Bus.ext
  · change bus.lcd.setPort6 0x60 = _
    rw [Lcd.setPort6, if_neg (by decide), i2cStep,
      if_neg (fun hrise => absurd hrise.1 (by rw [hport]; decide)),
      if_neg (by rw [hport]; decide), if_pos (by rw [hport]; decide)]
  · change bus.decoded ++ (bus.lcd.decodes 0x60).toList = _
    rw [Lcd.decodes, if_neg fun h => absurd h.2.1 (by rw [hport]; decide)]
    exact List.append_nil _

/-- The clock before the stop condition is read as a bit. -/
theorem drive_last (bus : Bus) (hready : bus.Ready) :
    (bus.withLines 0).drive 0x20 =
      { bus with
        lcd := { bus.lcd with
          i2cBitnr := 0
          i2cData := 0
          port6 := 0x20 } } := by
  have hnext : (bus.withLines 0).lcd.i2cBitnr + 1 = 0 := by
    change bus.lcd.i2cBitnr + 1 = 0
    rw [hready.bitnr]
    decide
  have hdata : (bus.withLines 0).lcd.i2cData = 0 := hready.data
  have hbit := drive_bit (bus.withLines 0) false rfl hready.state
    (by rw [hnext]; decide)
  rw [hnext, hdata] at hbit
  exact hbit

theorem reaches_stop (h : b.Agrees) (hready : b.bus.Ready) :
    Reaches b.bus.stopped b (bset interrupts 6 (bset interrupts 5
      (bclr interrupts 6 b))) := by
  obtain ⟨c, hport⟩ := hready.clock
  have hdata := reaches_bclr interrupts h (by decide : 6 < 8) (p := 0) hport
    (by cases c <;> decide)
  rw [Bus.drive_low _ (by decide)] at hdata
  have hclock := reaches_bset interrupts hdata.agrees (by decide : 5 < 8)
    (p := 0x20) (q := 0) (by rw [hdata.bus]; rfl) (by decide)
  rw [hdata.bus, drive_last _ hready] at hclock
  have hstop := reaches_bset interrupts hclock.agrees (by decide : 6 < 8)
    (p := 0x60) (q := 0x20) (by rw [hclock.bus]) (by decide)
  rw [hclock.bus, drive_stop _ rfl] at hstop
  exact (hdata.trans hclock).trans hstop

end Frame

section Contents

variable {bus : Bus} {byte : Byte}

theorem take_ready (hstate : (bus.take byte).lcd.i2cState.msb = false) :
    (bus.take byte).Ready :=
  ⟨hstate, rfl, rfl, _, rfl⟩

/-- The first bytes of the display are written, and the next ones follow. -/
structure Bus.Showing (shown : List Byte) (bus : Bus) : Prop where
  ready : bus.Ready
  state : bus.lcd.i2cState = 2
  subaddr : bus.lcd.lcdSubaddr = 0
  mode : bus.lcd.lcdMode = 8
  ptr : bus.lcd.lcdPtr = BitVec.ofNat 8 (2 * shown.length)
  data : ∀ i < shown.length, shown[i]? = some (bus.lcd.lcdData i)

theorem take_device (hstate : bus.lcd.i2cState = 0) :
    (bus.take 0x7c).lcd.i2cState = 1 := by
  simp [Bus.take, i2cByte, hstate]

theorem take_mode (hstate : bus.lcd.i2cState = 1) :
    (bus.take 0xc8).lcd.i2cState = 1 ∧ (bus.take 0xc8).lcd.lcdMode = 8 := by
  simp [Bus.take, i2cByte, hstate]

theorem take_subaddr (hstate : bus.lcd.i2cState = 1) :
    (bus.take 0xe0).lcd.i2cState = 1 ∧ (bus.take 0xe0).lcd.lcdSubaddr = 0 ∧
      (bus.take 0xe0).lcd.lcdMode = bus.lcd.lcdMode := by
  simp [Bus.take, i2cByte, hstate]

theorem take_pointer (hstate : bus.lcd.i2cState = 1) :
    (bus.take 0x00).lcd.i2cState = 2 ∧ (bus.take 0x00).lcd.lcdPtr = 0 ∧
      (bus.take 0x00).lcd.lcdSubaddr = bus.lcd.lcdSubaddr ∧
      (bus.take 0x00).lcd.lcdMode = bus.lcd.lcdMode := by
  simp [Bus.take, i2cByte, hstate]

theorem take_data (hstate : bus.lcd.i2cState = 2)
    (hsub : bus.lcd.lcdSubaddr = 0) :
    (bus.take byte).lcd = { bus.lcd with
      lcdData := Function.update bus.lcd.lcdData
        (bus.lcd.lcdPtr.sshiftRight 1).toInt byte
      lcdPtr := bus.lcd.lcdPtr + 2
      i2cBitnr := 0xff
      i2cData := 0
      port6 := level (byte.getLsbD 0) } := by
  simp only [Bus.take, i2cByte, hstate, hsub, Lcd.lcdDisplay_eq]
  rfl

theorem Bus.Showing.take {shown : List Byte} (h : bus.Showing shown)
    (hlength : shown.length < 9) (byte : Byte) :
    (bus.take byte).Showing (shown ++ [byte]) := by
  have htake := @take_data bus byte h.state h.subaddr
  have hindex : (bus.lcd.lcdPtr.sshiftRight 1).toInt = shown.length := by
    have hall : ∀ n : Fin 9,
        ((BitVec.ofNat 8 (2 * n)).sshiftRight 1).toInt = n := by decide
    rw [h.ptr]
    exact hall ⟨shown.length, hlength⟩
  rw [hindex] at htake
  have hstate : (bus.take byte).lcd.i2cState = 2 := by
    rw [htake]
    exact h.state
  constructor
  · apply take_ready
    rw [hstate]
    decide
  · exact hstate
  · rw [htake]
    exact h.subaddr
  · rw [htake]
    exact h.mode
  · rw [htake, h.ptr, List.length_append, List.length_singleton, Nat.mul_add]
    exact (BitVec.ofNat_add _ 2).symm
  · intro i hi
    rw [List.length_append, List.length_singleton] at hi
    rw [htake]
    by_cases hlast : i = shown.length
    · simp [hlast]
    · have hcast : (i : ℤ) ≠ shown.length := by exact_mod_cast hlast
      rw [List.getElem?_append_left (by omega), h.data i (by omega)]
      simp only [Function.update_of_ne hcast]

theorem Bus.Showing.foldl {shown : List Byte} (bytes : List Byte)
    (h : bus.Showing shown) (hlength : shown.length + bytes.length ≤ 9) :
    bus.ReadyFor bytes ∧ (bytes.foldl Bus.take bus).Showing (shown ++ bytes) := by
  induction bytes generalizing bus shown with
  | nil =>
      rw [List.append_nil]
      exact ⟨trivial, h⟩
  | cons byte bytes ih =>
      rw [List.length_cons] at hlength
      have hnext := h.take (by omega) byte
      have hrest := ih hnext (by
        rw [List.length_append, List.length_singleton]
        omega)
      rw [List.append_assoc] at hrest
      exact ⟨⟨h.ready, hrest.1⟩, hrest.2⟩

theorem readyFor_append (bytes bytes' : List Byte)
    (h : bus.ReadyFor bytes)
    (h' : (bytes.foldl Bus.take bus).ReadyFor bytes') :
    bus.ReadyFor (bytes ++ bytes') := by
  induction bytes generalizing bus with
  | nil => exact h'
  | cons byte bytes ih => exact ⟨h.1, ih h.2 h'⟩

theorem foldl_take_decoded (bytes : List Byte) :
    (bytes.foldl Bus.take bus).decoded = bus.decoded ++ bytes := by
  induction bytes generalizing bus with
  | nil => exact (List.append_nil _).symm
  | cons byte bytes ih =>
      rw [List.foldl_cons, ih]
      exact List.append_assoc ..

/-- The four bytes before the contents of the display. -/
def lcdHeader : List Byte :=
  [0x7c, 0xc8, 0xe0, 0x00]

theorem showing_header (hready : bus.Ready)
    (hstate : bus.lcd.i2cState = 0) :
    bus.ReadyFor lcdHeader ∧
      (lcdHeader.foldl Bus.take bus).Showing [] := by
  have hdevice := take_device hstate
  have hmode := take_mode hdevice
  have hsubaddr := take_subaddr hmode.1
  have hpointer := take_pointer hsubaddr.1
  have hready₁ : (bus.take 0x7c).Ready :=
    take_ready (by rw [hdevice]; decide)
  have hready₂ : ((bus.take 0x7c).take 0xc8).Ready :=
    take_ready (by rw [hmode.1]; decide)
  have hready₃ : (((bus.take 0x7c).take 0xc8).take 0xe0).Ready :=
    take_ready (by rw [hsubaddr.1]; decide)
  refine ⟨⟨hready, hready₁, hready₂, hready₃, trivial⟩, ?_⟩
  exact {
    ready := take_ready (by rw [hpointer.1]; decide)
    state := hpointer.1
    subaddr := hpointer.2.2.1.trans hsubaddr.2.1
    mode := hpointer.2.2.2.trans (hsubaddr.2.2.trans hmode.2)
    ptr := hpointer.2.1
    data := fun i hi => absurd hi (Nat.not_lt_zero i) }

end Contents

section Refresh

variable (interrupts : ℕ → List (BitVec 3))

theorem displayAt_bytes (ram : Ram) (n : ℕ) {addr : Word}
    (hlow : 0xef3f ≤ addr.toNat) (hhigh : addr.toNat + n ≤ 0xef4c) :
    DisplayAt ram addr (ram.bytes addr n) := by
  induction n generalizing addr with
  | zero => exact .nil addr
  | succ n ih =>
      have hone : (1 : Word).toNat = 1 := rfl
      have hnext : (addr + 1).toNat = addr.toNat + 1 := by
        rw [BitVec.toNat_add, hone]
        omega
      exact .cons ⟨hlow, by omega⟩ (ih (by omega) (by omega))

theorem writeLcdOutput_reaches {fuel : ℕ} (hfuel : 8 ≤ fuel) {b : Board}
    (h : b.Agrees) (hidle : b.bus.lcd.i2cState = 0xff) {bytes : List Byte}
    (hlength : bytes.length = 13) {r6 : Word}
    (hbytes : DisplayAt b.ram r6 bytes)
    (hready : b.bus.started.ReadyFor bytes)
    (hend : (bytes.foldl Bus.take b.bus.started).Ready) :
    ∃ b', writeLcdOutput interrupts fuel r6 13 b = some b' ∧
      Reaches (bytes.foldl Bus.take b.bus.started).stopped b b' := by
  have hddr := reaches_store h (by decide : port6 ≠ port6Ddr) (by decide)
    (b.ram port6DdrShadow ||| 0x60)
  have hshadow := reaches_store hddr.agrees
    (by decide : port6 ≠ port6DdrShadow) (by decide)
    (b.ram port6DdrShadow ||| 0x60)
  have hstart := reaches_start interrupts hshadow.agrees hidle
  rw [hshadow.bus, hddr.bus] at hstart
  have hsofar := (hddr.trans hshadow).trans hstart
  obtain ⟨b₁, hloop, hsent⟩ := byteLoop_reaches interrupts hfuel hstart.agrees
    (hstart.bus ▸ hready) (hbytes.congr hsofar.display)
  rw [hstart.bus] at hsent
  have hstop := reaches_stop interrupts hsent.agrees (hsent.bus ▸ hend)
  rw [hsent.bus] at hstop
  refine ⟨_, ?_, (hsofar.trans hsent).trans hstop⟩
  rw [hlength] at hloop
  simp only [writeLcdOutput]
  rw [if_neg (by decide)]
  change (byteLoop interrupts fuel 13 r6 _ >>= _) = _
  rw [hloop]
  rfl

/-- The board with the header before the contents. -/
def Board.withHeader (b : Board) : Board :=
  (((b.store (lcdDisplay - 1) 0x00).store (lcdDisplay - 2) 0xe0).store
    (lcdDisplay - 3) 0xc8).store (lcdDisplay - 4) 0x7c

theorem withHeader_agrees {b : Board} (h : b.Agrees) : b.withHeader.Agrees := by
  have hport : b.withHeader.ram port6 = b.ram port6 := by
    simp (disch := decide) only [Board.withHeader, Board.store, Ram.set_of_ne]
  exact hport.trans h

theorem withHeader_bytes (b : Board) :
    b.withHeader.ram.bytes (lcdDisplay - 4) 13 =
      lcdHeader ++ b.ram.bytes lcdDisplay 9 := by
  have h3 : lcdDisplay - 4 + 1 = lcdDisplay - 3 := by decide
  have h2 : lcdDisplay - 3 + 1 = lcdDisplay - 2 := by decide
  have h1 : lcdDisplay - 2 + 1 = lcdDisplay - 1 := by decide
  have h0 : lcdDisplay - 1 + 1 = lcdDisplay := by decide
  simp (disch := decide) only [Board.withHeader, Board.store, Ram.bytes, h3, h2,
    h1, h0, Ram.set_self, Ram.set_of_ne]
  rfl

/-- The display decodes what `lcd_refresh` sends and shows the contents. -/
theorem lcdRefresh_shows (fuel : ℕ) (hfuel : 8 ≤ fuel) (b : Board)
    (hport : b.ram port6 = b.lcd.port6) (hidle : b.lcd.i2cState = 0xff) :
    ∃ b', lcdRefresh interrupts fuel b = some (0, b') ∧
      b'.decoded = b.decoded ++ [0x7c, 0xc8, 0xe0, 0x00] ++
        b.ram.bytes lcdDisplay 9 ∧
      (∀ i : ℕ, i < 9 →
        b'.lcd.lcdData i = b.ram (lcdDisplay + BitVec.ofNat 16 i)) ∧
      b'.lcd.lcdMode &&& 8 ≠ 0 ∧ b'.lcd.i2cState = 0xff ∧
      b'.ram port6 = b'.lcd.port6 := by
  have hstarted : b.bus.started.Ready :=
    ⟨(by decide : (0 : Byte).msb = false), rfl, rfl, false, rfl⟩
  obtain ⟨hheader, hshowing⟩ := showing_header hstarted rfl
  obtain ⟨hcontents, hshown⟩ := hshowing.foldl (b.ram.bytes lcdDisplay 9)
    (by rw [Ram.bytes_length]; decide)
  rw [List.nil_append, ← List.foldl_append] at hshown
  obtain ⟨b', hwrite, hreaches⟩ := writeLcdOutput_reaches interrupts hfuel
    (withHeader_agrees hport) hidle (Ram.bytes_length _ (lcdDisplay - 4) 13)
    (displayAt_bytes _ 13 (by decide) (by decide))
    (by
      rw [withHeader_bytes]
      exact readyFor_append _ _ hheader hcontents)
    (by
      rw [withHeader_bytes]
      exact hshown.ready)
  have hsame : b.withHeader.bus = b.bus := rfl
  rw [withHeader_bytes, hsame] at hreaches
  have hdecoded := @foldl_take_decoded b.bus.started
    (lcdHeader ++ b.ram.bytes lcdDisplay 9)
  generalize (lcdHeader ++ b.ram.bytes lcdDisplay 9).foldl Bus.take
    b.bus.started = bus at hreaches hshown hdecoded
  have hlcd : b'.lcd.lines = bus.stopped.lcd := congrArg Bus.lcd hreaches.bus
  refine ⟨b', ?_, ?_, ?_, ?_, congrArg Lcd.i2cState hlcd, hreaches.agrees⟩
  · change (writeLcdOutput interrupts fuel (lcdDisplay - 4) 13 b.withHeader >>=
      fun b => some (0, b)) = _
    rw [hwrite]
    rfl
  · rw [List.append_assoc]
    exact (congrArg Bus.decoded hreaches.bus).trans hdecoded
  · intro i hi
    have hdata := hshown.data i (by rw [Ram.bytes_length]; exact hi)
    rw [Ram.bytes_getElem? _ _ hi] at hdata
    exact (congrFun (congrArg Lcd.lcdData hlcd) i).trans
      (Option.some.inj hdata).symm
  · have hmode : b'.lcd.lcdMode = 8 :=
      (congrArg Lcd.lcdMode hlcd).trans hshown.mode
    rw [hmode]
    decide

/-- A board with a sample of a display, before its first refresh. -/
def sampleBoard : Board where
  ram addr := if addr = lcdDisplay then 0x12 else 0
  lcd :=
    { lcdData := fun _ => 0
      lcdMode := 0
      lcdPtr := 0
      lcdSubaddr := 0
      i2cState := 0xff
      i2cData := 0
      i2cBitnr := 0
      port6 := 0 }
  decoded := []
  time := 0

theorem lcdRefresh_shows_sample :
    ∃ b', lcdRefresh (fun time => if time = 7 then [5, 0] else []) 8
        sampleBoard = some (0, b') ∧
      b'.decoded = [0x7c, 0xc8, 0xe0, 0, 0x12, 0, 0, 0, 0, 0, 0, 0, 0] ∧
      b'.lcd.lcdData 0 = 0x12 := by
  obtain ⟨b', hrun, hdecoded, hdata, -⟩ := lcdRefresh_shows
    (fun time => if time = 7 then [5, 0] else []) 8 (le_refl 8) sampleBoard
    (by decide) rfl
  exact ⟨b', hrun, hdecoded.trans (by decide), hdata 0 (by decide)⟩

end Refresh

end Rom

end BrickEmu
