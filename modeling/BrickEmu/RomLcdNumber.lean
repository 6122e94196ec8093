import BrickEmu.AsmFlags
import BrickEmu.RomLcd
import Mathlib.Data.Nat.Digits.Lemmas

/-!
# Numbers on the display

`lcd_number` of `rom-lcd.s` turns a number into bits of the display, and
`update_lcd` of `GUI.tcl` draws every bit as an item of its own.  The items of
a digit form the segments of the numeral, with the sign in front of the first
digit and the point where the format puts it.  The registers that the routine
keeps on the stack are left out, so the words below r7 do not change here.
-/

namespace BrickEmu

namespace Rom

/-- The bytes of the display, by their index in `lcd_display`. -/
abbrev DisplayBytes : Type := ℕ → Byte

section Routine

/-- The registers of `lcd_number`, by the byte they hold. -/
def r0h : ℕ := 0
def r0l : ℕ := 1
def r1h : ℕ := 3
def r1l : ℕ := 4
def r2h : ℕ := 5
def r2l : ℕ := 6
def r3h : ℕ := 7
def r3l : ℕ := 8

/-- `bst` on a register. -/
def storeBit (reg j : ℕ) (carry : Bool) (r : DisplayBytes) : DisplayBytes :=
  Function.update r reg
    (if carry then r reg ||| ((1 : Byte) <<< j)
      else r reg &&& ~~~((1 : Byte) <<< j))

/-- Pairs of `bld` from the mask and `bst`: the bit of the mask, the register
and the bit there. -/
def storeDigit (places : List (ℕ × ℕ × ℕ)) (mask : Byte) (r : DisplayBytes) :
    DisplayBytes :=
  places.foldl (fun r place =>
    storeBit place.2.1 place.2.2 (mask.getLsbD place.1) r) r

/-- The digits from the right, as `GUI.tcl` numbers them.  Digit 0 is that of
`lcd_num_digit`, which has its bytes in other registers. -/
def digitPlaces : Fin 5 → List (ℕ × ℕ × ℕ)
  | 0 => [(2, 1, 4), (0, 1, 5), (5, 1, 7), (1, 2, 5), (6, 2, 7), (3, 4, 5),
      (4, 4, 7)]
  | 1 => [(2, r0h, 4), (0, r0h, 5), (5, r0h, 7), (1, r1l, 1), (6, r1l, 3),
      (3, r2h, 5), (4, r2h, 7)]
  | 2 => [(2, r0l, 0), (0, r0l, 1), (5, r0l, 3), (1, r2h, 1), (6, r2h, 3),
      (3, r2l, 5), (4, r2l, 7)]
  | 3 => [(2, r1h, 0), (0, r1h, 1), (5, r1h, 3), (1, r3l, 1), (6, r3l, 3),
      (3, r3l, 5), (4, r3l, 7)]
  | 4 => [(2, r1h, 4), (0, r1h, 5), (5, r1h, 7), (1, r3h, 1), (6, r3h, 3),
      (3, r3h, 5), (4, r3h, 7)]

def lcdNumDig2mask (digit : ℕ) : Byte :=
  [0x7e, 0x42, 0x37, 0x67, 0x4b, 0x6d, 0x7d, 0x46, 0x7f, 0x6f].getD digit 0

/-- The quotient is in the low byte, the remainder in the high byte. -/
def divxu (src : Byte) (dest : Word) : Word :=
  (dest / src.setWidth 16 &&& (0xff : Word)) + (dest % src.setWidth 16) <<< 8

/-- The position of the point, 0 if the format is unknown. -/
def commaPlace (comma : Word) : Byte :=
  if highByte comma = 0x30 ∧ lowByte comma < 6 then lowByte comma else 0

/-- `r4l` is 0 for a negative number and 1 for the other signed ones. -/
def signOf (r4l : Byte) (counter : Word) : Byte :=
  if r4l = 1 ∧ counter.msb then 0 else r4l

def magnitude (r4l : Byte) (counter : Word) : Word :=
  let r6 := if r4l = 1 ∧ counter.msb then ~~~counter + 1 else counter
  if r6 ≤ 9999 then r6 else 9999

/-- The bits of the bytes outside the digits, the points and the sign. -/
def otherBits (idx : ℕ) : Byte :=
  [0x4f, 0xf4, 0xff, 0x44, 0xf5, 0x15, 0x1f, 0x15, 0x15].getD idx 0xff

def clearNumber (m : Ram) : DisplayBytes := fun idx =>
  m (lcdDisplay + BitVec.ofNat 16 idx) &&& otherBits idx

section Digits

variable (r4h r4l : Byte)

def fourthDigit (r6 : Word) (r : DisplayBytes) : DisplayBytes :=
  let r := storeDigit (digitPlaces 4) (lcdNumDig2mask r6.toNat) r
  let r := if r4h = 5 then storeBit r3l 6 true r else r
  storeBit r3h 6 (r4l < 1) r

def thirdDigit (r6 : Word) (r : DisplayBytes) : DisplayBytes :=
  let r6 := divxu 10 r6
  let r := storeDigit (digitPlaces 3) (lcdNumDig2mask (highByte r6).toNat) r
  let r6 := (lowByte r6).setWidth 16
  if 4 < r4h then fourthDigit r4h r4l r6 r
  else
    let r := storeBit r2l 6 (!decide (r4h < 4)) r
    if r6 ≠ 0 ∨ 1 < r4l then fourthDigit r4h r4l r6 r
    else storeBit r1h 5 (r4l < 1) r

def secondDigit (r6 : Word) (r : DisplayBytes) : DisplayBytes :=
  let r6 := divxu 10 r6
  let r := storeDigit (digitPlaces 2) (lcdNumDig2mask (highByte r6).toNat) r
  let r6 := (lowByte r6).setWidth 16
  if 3 < r4h then thirdDigit r4h r4l r6 r
  else
    let r := storeBit r2h 6 (!decide (r4h < 3)) r
    if r6 ≠ 0 ∨ 1 < r4l then thirdDigit r4h r4l r6 r
    else storeBit r1h 1 (r4l < 1) r

/-- The number is divided by ten in two steps, the high byte first. -/
def firstDigit (r6 : Word) (r : DisplayBytes) : DisplayBytes :=
  let r5 := divxu 10 ((highByte r6).setWidth 16)
  let r6 := divxu 10 (highByte r5 ++ lowByte r6)
  let digit := highByte r6
  let r6 := lowByte r5 ++ lowByte r6
  let r := storeDigit (digitPlaces 1) (lcdNumDig2mask digit.toNat) r
  if 2 < r4h ∨ r6 ≠ 0 ∨ 1 < r4l then secondDigit r4h r4l r6 r
  else storeBit r0l 1 (r4l < 1) r

end Digits

def storeBytes (idxs : List ℕ) (r : DisplayBytes) (m : Ram) : Ram :=
  idxs.foldl (fun m idx => m.set (lcdDisplay + BitVec.ofNat 16 idx) (r idx)) m

/-- The bits of the bytes outside the digit of the program. -/
def otherProgramBits (idx : ℕ) : Byte :=
  [0xff, 0x4f, 0x5f, 0xff, 0x5f].getD idx 0xff

/-- `lcd_num_digit`: the digit of the program. -/
def lcdNumDigit (counter : Word) (m : Ram) : Ram :=
  if 10 ≤ lowByte counter ∨ highByte counter ≠ 0 then m
  else
    let r : DisplayBytes := fun idx =>
      m (lcdDisplay + BitVec.ofNat 16 idx) &&& otherProgramBits idx
    storeBytes [1, 2, 4]
      (storeDigit (digitPlaces 0) (lcdNumDig2mask counter.toNat) r) m

/-- The number and the format come on the stack.  The result is always 0. -/
def lcdNumber (r6 counter comma : Word) (m : Ram) : Word × Ram :=
  if highByte r6 ≠ 0x30 then (0, m)
  else if lowByte r6 = 0x01 ∨ lowByte r6 = 0x1f then
    let r := firstDigit (commaPlace comma) (signOf (lowByte r6) counter)
      (magnitude (lowByte r6) counter) (clearNumber m)
    (0, storeBytes [r0h, r0l, r1h, r1l, r2h, r2l, r3h, r3l] r m)
  else if lowByte r6 = 0x17 then (0, lcdNumDigit counter m)
  else (0, m)

end Routine

section Display

/-- `update_lcd`: an item is filled when its bit is set. -/
def filled (bytes : DisplayBytes) (item : ℕ) : Bool :=
  (bytes (item / 8)).getLsbD (item % 8)

def Ram.displayBytes (m : Ram) : DisplayBytes := fun idx =>
  m (lcdDisplay + BitVec.ofNat 16 idx)

/-- The lines of a digit in `create_display`, by where they lie. -/
inductive Segment where
  | top
  | upperLeft
  | upperRight
  | middle
  | lowerLeft
  | lowerRight
  | bottom
  deriving DecidableEq

instance : Fintype Segment where
  elems := {.top, .upperLeft, .upperRight, .middle, .lowerLeft, .lowerRight,
    .bottom}
  complete segment := by cases segment <;> simp

/-- The items of the digits in `create_display`. -/
def digitItem : Fin 5 → Segment → ℕ
  | 0, .top => 12 | 0, .upperLeft => 37 | 0, .upperRight => 21
  | 0, .middle => 13 | 0, .lowerLeft => 39 | 0, .lowerRight => 23
  | 0, .bottom => 15
  | 1, .top => 4 | 1, .upperLeft => 45 | 1, .upperRight => 33
  | 1, .middle => 5 | 1, .lowerLeft => 47 | 1, .lowerRight => 35
  | 1, .bottom => 7
  | 2, .top => 8 | 2, .upperLeft => 53 | 2, .upperRight => 41
  | 2, .middle => 9 | 2, .lowerLeft => 55 | 2, .lowerRight => 43
  | 2, .bottom => 11
  | 3, .top => 24 | 3, .upperLeft => 69 | 3, .upperRight => 65
  | 3, .middle => 25 | 3, .lowerLeft => 71 | 3, .lowerRight => 67
  | 3, .bottom => 27
  | 4, .top => 28 | 4, .upperLeft => 61 | 4, .upperRight => 57
  | 4, .middle => 29 | 4, .lowerLeft => 63 | 4, .lowerRight => 59
  | 4, .bottom => 31

/-- The points lie to the right of the digits 2, 3 and 4. -/
def pointItem : Fin 3 → ℕ
  | 0 => 46
  | 1 => 54
  | 2 => 70

/-- The item of digit 5, the sign of a number of four digits. -/
def minusItem : ℕ := 62

end Display

section Numerals

/-- What can be seen at the place of a digit. -/
inductive Glyph where
  | blank
  | minus
  | numeral (digit : ℕ)

/-- The shapes of the numerals. -/
def numeralSegment (digit : ℕ) (segment : Segment) : Bool :=
  match digit with
  | 0 => segment ≠ .middle
  | 1 => segment ∈ [.upperRight, .lowerRight]
  | 2 => segment ∉ [.upperLeft, .lowerRight]
  | 3 => segment ∉ [.upperLeft, .lowerLeft]
  | 4 => segment ∉ [.top, .lowerLeft, .bottom]
  | 5 => segment ∉ [.upperRight, .lowerLeft]
  | 6 => segment ≠ .upperRight
  | 7 => segment ∈ [.top, .upperRight, .lowerRight]
  | 8 => true
  | 9 => segment ≠ .lowerLeft
  | _ => false

def Glyph.segment : Glyph → Segment → Bool
  | blank, _ => false
  | minus, segment => segment = .middle
  | numeral digit, segment => numeralSegment digit segment

/-- A number as it is written: at least `decimals + 1` digits. -/
structure Numeral where
  negative : Bool
  value : ℕ
  width : ℕ
  decimals : ℕ

/-- The sign stands in front of the first digit. -/
def Numeral.glyphAt (numeral : Numeral) (place : ℕ) : Glyph :=
  if place < numeral.width then
    .numeral (numeral.value / 10 ^ place % 10)
  else if place = numeral.width ∧ numeral.negative then .minus
  else .blank

/-- Signed numbers are written without leading zeros, unsigned ones with four
digits; more than four digits do not fit. -/
def numeralOf (signed : Bool) (counter comma : Word) : Numeral :=
  let value := min (if signed then counter.toInt.natAbs else counter.toNat) 9999
  let decimals := (commaPlace comma).toNat - 2
  { negative := signed && counter.msb
    value := value
    width :=
      if signed then max (Nat.digits 10 value).length (decimals + 1) else 4
    decimals := decimals }

/-- The numeral is on the display, and the rest of it is as before. -/
structure Written (numeral : Numeral) (bytes bytes' : DisplayBytes) :
    Prop where
  digits : ∀ (place : Fin 4) segment,
    filled bytes' (digitItem place.succ segment) =
      (numeral.glyphAt place).segment segment
  points : ∀ place : Fin 3,
    filled bytes' (pointItem place) = decide (numeral.decimals = place + 1)
  minus : filled bytes' minusItem =
    decide (numeral.negative = true ∧ numeral.width = 4)
  others : ∀ item < 72, item ≠ minusItem → (∀ place, item ≠ pointItem place) →
    (∀ (place : Fin 4) segment, item ≠ digitItem place.succ segment) →
      filled bytes' item = filled bytes item

/-- What the routine does to the memory `m`, by the code in `r6`. -/
structure Displayed (r6 counter comma : Word) (m m' : Ram) : Prop where
  memory : ∀ addr, (∀ idx < 9, addr ≠ lcdDisplay + BitVec.ofNat 16 idx) →
    m' addr = m addr
  number : r6 = 0x3001 ∨ r6 = 0x301f →
    Written (numeralOf (r6 = 0x3001) counter comma) m.displayBytes
      m'.displayBytes
  program : r6 = 0x3017 → counter < 10 →
    (∀ segment, filled m'.displayBytes (digitItem 0 segment) =
      numeralSegment counter.toNat segment) ∧
    ∀ item < 72, (∀ segment, item ≠ digitItem 0 segment) →
      filled m'.displayBytes item = filled m.displayBytes item
  program_large : r6 = 0x3017 → ¬ counter < 10 → m' = m
  unknown : r6 ∉ [0x3001, 0x301f, 0x3017] → m' = m

end Numerals

section Items

theorem getLsbD_storeBit (val : Byte) (carry : Bool) {i j : ℕ} (hi : i < 8)
    (hj : j < 8) :
    (if carry then val ||| ((1 : Byte) <<< j)
      else val &&& ~~~((1 : Byte) <<< j)).getLsbD i =
        if i = j then carry else val.getLsbD i := by
  have hbit : ((1 : Byte) <<< j).getLsbD i = decide (i = j) := by
    have hone : ((1 : Byte) <<< j) = BitVec.twoPow 8 j := by
      rw [BitVec.twoPow_eq]
      rfl
    rw [hone, BitVec.getLsbD_twoPow]
    simp only [hj, decide_true, Bool.true_and, eq_comm]
  cases carry with
  | true =>
      rw [if_pos rfl, BitVec.getLsbD_or, hbit]
      split_ifs with h <;> simp [h]
  | false =>
      rw [if_neg Bool.false_ne_true, BitVec.getLsbD_and, BitVec.getLsbD_not,
        hbit]
      split_ifs with h <;> simp [h, hi]

/-- The carry goes to one item. -/
theorem filled_storeBit {reg j : ℕ} (hj : j < 8) (carry : Bool)
    (r : DisplayBytes) (item : ℕ) :
    filled (storeBit reg j carry r) item =
      if item = 8 * reg + j then carry else filled r item := by
  have hi : item % 8 < 8 := Nat.mod_lt _ (by decide)
  unfold filled storeBit
  by_cases hreg : item / 8 = reg
  · rw [hreg, Function.update_self, getLsbD_storeBit _ _ hi hj]
    have hiff : item % 8 = j ↔ item = 8 * reg + j := by omega
    simp only [hiff]
  · have hne : item ≠ 8 * reg + j := by omega
    rw [Function.update_of_ne hreg, if_neg hne]

/-- The bit of the mask for a segment. -/
def maskBit : Segment → ℕ
  | .top => 2
  | .upperLeft => 3
  | .upperRight => 1
  | .middle => 0
  | .lowerLeft => 4
  | .lowerRight => 6
  | .bottom => 5

theorem numeralSegment_eq (digit : Fin 10) (segment : Segment) :
    (lcdNumDig2mask digit).getLsbD (maskBit segment) =
      numeralSegment digit segment := by
  revert digit segment
  decide

theorem filled_storeDigit_of_not_mem {places : List (ℕ × ℕ × ℕ)}
    (hplaces : ∀ place ∈ places, place.2.2 < 8) (mask : Byte)
    (r : DisplayBytes) {item : ℕ}
    (hitem : ∀ place ∈ places, item ≠ 8 * place.2.1 + place.2.2) :
    filled (storeDigit places mask r) item = filled r item := by
  induction places generalizing r with
  | nil => rfl
  | cons place places ih =>
      have hrest := ih (fun p hp => hplaces p (List.mem_cons_of_mem _ hp))
        (storeBit place.2.1 place.2.2 (mask.getLsbD place.1) r)
        (fun p hp => hitem p (List.mem_cons_of_mem _ hp))
      refine hrest.trans ?_
      rw [filled_storeBit (hplaces place List.mem_cons_self),
        if_neg (hitem place List.mem_cons_self)]

/-- The mask of a digit goes to its segments. -/
theorem filled_storeDigit (place : Fin 5) (mask : Byte) (r : DisplayBytes)
    (segment : Segment) :
    filled (storeDigit (digitPlaces place) mask r) (digitItem place segment) =
      mask.getLsbD (maskBit segment) := by
  fin_cases place <;> cases segment <;>
    simp [storeDigit, digitPlaces, digitItem, maskBit, filled_storeBit, r0h,
      r0l, r1h, r1l, r2h, r2l, r3h, r3l]

theorem digitPlaces_item : ∀ place, ∀ p ∈ digitPlaces place, p.2.2 < 8 ∧
    ∃ segment, 8 * p.2.1 + p.2.2 = digitItem place segment := by
  decide

theorem filled_storeDigit_other {place : Fin 5} (mask : Byte)
    (r : DisplayBytes) {item : ℕ}
    (hitem : ∀ segment, item ≠ digitItem place segment) :
    filled (storeDigit (digitPlaces place) mask r) item = filled r item := by
  have hplaces : ∀ p ∈ digitPlaces place, p.2.2 < 8 ∧
      ∃ segment, 8 * p.2.1 + p.2.2 = digitItem place segment :=
    digitPlaces_item place
  apply filled_storeDigit_of_not_mem fun p hp => (hplaces p hp).1
  intro p hp
  obtain ⟨segment, hsegment⟩ := (hplaces p hp).2
  rw [hsegment]
  exact hitem segment

theorem digitItem_injective : ∀ place place' segment segment',
    digitItem place segment = digitItem place' segment' →
      place = place' ∧ segment = segment' := by
  decide

theorem digitItem_ne_pointItem : ∀ place segment place',
    digitItem place segment ≠ pointItem place' := by
  decide

theorem digitItem_ne_minusItem : ∀ place segment,
    digitItem place segment ≠ minusItem := by
  decide

theorem pointItem_ne_minusItem : ∀ place, pointItem place ≠ minusItem := by
  decide

theorem pointItem_injective : ∀ place place',
    pointItem place = pointItem place' → place = place' := by
  decide

theorem filled_storeMinus (carry : Bool) (r : DisplayBytes) (item : ℕ) :
    filled (storeBit r3h 6 carry r) item =
      if item = minusItem then carry else filled r item :=
  filled_storeBit (by decide) carry r item

end Items

section Stages

/-- The first digits and points of the number, and no sign yet. -/
structure Begun (value decimals digits points : ℕ)
    (bytes bytes' : DisplayBytes) : Prop where
  digit : ∀ (place : Fin 4) segment,
    filled bytes' (digitItem place.succ segment) =
      (if (place : ℕ) < digits then .numeral (value / 10 ^ (place : ℕ) % 10)
        else .blank : Glyph).segment segment
  point : ∀ place : Fin 3, filled bytes' (pointItem place) =
    decide ((place : ℕ) < points ∧ decimals = place + 1)
  minus : filled bytes' minusItem = false
  other : ∀ item < 72, item ≠ minusItem → (∀ place, item ≠ pointItem place) →
    (∀ (place : Fin 4) segment, item ≠ digitItem place.succ segment) →
      filled bytes' item = filled bytes item

namespace Begun

variable {value decimals digits points : ℕ} {bytes r : DisplayBytes}

theorem storeDigit (h : Begun value decimals digits points bytes r)
    (place : Fin 4) (hplace : digits = place) (digit : ℕ)
    (hdigit : digit = value / 10 ^ (place : ℕ) % 10) :
    Begun value decimals (digits + 1) points bytes
      (storeDigit (digitPlaces place.succ) (lcdNumDig2mask digit) r) where
  digit := fun place' segment => by
    by_cases heq : place' = place
    · subst heq
      have hlt : digit < 10 := hdigit ▸ Nat.mod_lt _ (by decide)
      rw [filled_storeDigit, numeralSegment_eq ⟨digit, hlt⟩, if_pos (by omega),
        ← hdigit]
      rfl
    · have hne : (place' : ℕ) ≠ place := fun hval => heq (Fin.ext hval)
      have hother := filled_storeDigit_other (lcdNumDig2mask digit) r
        (fun segment' hitem => heq (Fin.succ_injective _
          (digitItem_injective _ place.succ segment segment' hitem).1))
      have hiff : (place' : ℕ) < digits + 1 ↔ (place' : ℕ) < digits := by omega
      rw [hother, h.digit, if_congr hiff rfl rfl]
  point := fun place' => (filled_storeDigit_other _ _
    fun segment => (digitItem_ne_pointItem _ _ _).symm).trans (h.point place')
  minus := (filled_storeDigit_other _ _
    fun segment => (digitItem_ne_minusItem _ _).symm).trans h.minus
  other := fun item hitem hminus hpoint hdigits =>
    (filled_storeDigit_other _ _ (hdigits place)).trans
      (h.other item hitem hminus hpoint hdigits)

theorem storePoint (h : Begun value decimals digits points bytes r)
    (place : Fin 3) (hplace : points = place) (reg j : ℕ) (carry : Bool)
    (hj : j < 8) (hitem : pointItem place = 8 * reg + j)
    (hcarry : carry = decide (decimals = place + 1)) :
    Begun value decimals digits (points + 1) bytes
      (storeBit reg j carry r) where
  digit := fun place' segment => by
    rw [filled_storeBit hj, ← hitem, if_neg (digitItem_ne_pointItem _ _ _),
      h.digit]
  point := fun place' => by
    rw [filled_storeBit hj, ← hitem]
    by_cases heq : place' = place
    · subst heq
      rw [if_pos rfl, hcarry]
      have hlt : (place' : ℕ) < points + 1 := by omega
      simp only [hlt, true_and]
    · have hne : (place' : ℕ) ≠ place := fun hval => heq (Fin.ext hval)
      have hiff : (place' : ℕ) < points + 1 ↔ (place' : ℕ) < points := by
        omega
      rw [if_neg (fun hpoint => heq (pointItem_injective _ _ hpoint)),
        h.point]
      simp only [hiff]
  minus := by
    rw [filled_storeBit hj, ← hitem, if_neg (pointItem_ne_minusItem _).symm,
      h.minus]
  other := fun item hlt hminus hpoint hdigits => by
    rw [filled_storeBit hj, ← hitem, if_neg (hpoint place)]
    exact h.other item hlt hminus hpoint hdigits

/-- The branches around a point are those where it is further left. -/
theorem skipPoint (h : Begun value decimals digits points bytes r)
    (hpoint : decimals ≠ points + 1) :
    Begun value decimals digits (points + 1) bytes r :=
  { h with
    point := fun place => by
      have hiff : (place : ℕ) < points + 1 ∧ decimals = place + 1 ↔
          (place : ℕ) < points ∧ decimals = place + 1 := by
        omega
      rw [h.point]
      simp only [hiff] }

/-- The sign of a shorter number is the middle of the next digit. -/
theorem storeSign (h : Begun value decimals digits points bytes r)
    (hpoints : decimals ≤ points) (place : Fin 4) (hplace : digits = place)
    {reg j : ℕ} (hj : j < 8)
    (hitem : digitItem place.succ .middle = 8 * reg + j) (negative : Bool) :
    Written ⟨negative, value, digits, decimals⟩ bytes
      (storeBit reg j negative r) where
  digits := fun place' segment => by
    rw [filled_storeBit hj, ← hitem, h.digit]
    unfold Numeral.glyphAt
    by_cases hlt : (place' : ℕ) < digits
    · rw [if_pos hlt, if_pos hlt, if_neg]
      intro heq
      have := congrArg Fin.val
        (Fin.succ_injective _ (digitItem_injective _ _ _ _ heq).1)
      omega
    · rw [if_neg hlt, if_neg hlt]
      by_cases heq : place' = place
      · subst heq
        by_cases hsegment : segment = .middle
        · subst hsegment
          cases negative <;> simp [hplace, Glyph.segment]
        · rw [if_neg fun h => hsegment (digitItem_injective _ _ _ _ h).2]
          cases negative <;> simp [hplace, Glyph.segment, hsegment]
      · have hne : (place' : ℕ) ≠ place := fun hval => heq (Fin.ext hval)
        have hplace' : (place' : ℕ) ≠ digits := by omega
        rw [if_neg fun h => heq (Fin.succ_injective _
          (digitItem_injective _ _ _ _ h).1), if_neg fun h => hplace' h.1]
  points := fun place' => by
    have hiff : (place' : ℕ) < points ∧ decimals = place' + 1 ↔
        decimals = place' + 1 := by
      omega
    rw [filled_storeBit hj, ← hitem,
      if_neg (digitItem_ne_pointItem _ _ _).symm, h.point]
    simp only [hiff]
  minus := by
    rw [filled_storeBit hj, ← hitem, if_neg (digitItem_ne_minusItem _ _).symm,
      h.minus]
    have hlt : digits ≠ 4 := by omega
    simp [hlt]
  others := fun item hlt hminus hpoint hdigits => by
    rw [filled_storeBit hj, ← hitem, if_neg (hdigits place _)]
    exact h.other item hlt hminus hpoint hdigits

theorem storeMinus (h : Begun value decimals 4 3 bytes r)
    (hdecimals : decimals ≤ 3) (negative : Bool) :
    Written ⟨negative, value, 4, decimals⟩ bytes
      (storeBit r3h 6 negative r) where
  digits := fun place segment => by
    rw [filled_storeMinus, if_neg (digitItem_ne_minusItem _ _), h.digit]
    unfold Numeral.glyphAt
    rw [if_pos place.isLt, if_pos place.isLt]
  points := fun place => by
    have hiff : (place : ℕ) < 3 ∧ decimals = place + 1 ↔
        decimals = place + 1 := by
      omega
    rw [filled_storeMinus, if_neg (pointItem_ne_minusItem _), h.point]
    simp only [hiff]
  minus := by
    rw [filled_storeMinus, if_pos rfl]
    simp
  others := fun item hlt hminus hpoint hdigits => by
    rw [filled_storeMinus, if_neg hminus]
    exact h.other item hlt hminus hpoint hdigits

end Begun

end Stages

section Division

theorem toNat_divxu {src : Byte} (hsrc : src ≠ 0) (dest : Word) :
    (divxu src dest).toNat =
      dest.toNat / src.toNat % 256 + 256 * (dest.toNat % src.toNat) := by
  have hpos : 0 < src.toNat :=
    Nat.pos_of_ne_zero fun h => hsrc (BitVec.eq_of_toNat_eq h)
  have hlt := src.isLt
  have hrem : dest.toNat % src.toNat < 256 :=
    (Nat.mod_lt _ hpos).trans hlt
  have hand : dest.toNat / src.toNat &&& 255 =
      dest.toNat / src.toNat % 256 :=
    Nat.and_two_pow_sub_one_eq_mod _ 8
  have hsetWidth : (src.setWidth 16).toNat = src.toNat := by
    rw [BitVec.toNat_setWidth]
    omega
  unfold divxu
  rw [BitVec.toNat_add, BitVec.toNat_and, BitVec.toNat_shiftLeft,
    BitVec.toNat_udiv, BitVec.toNat_umod, hsetWidth,
    show (0xff : Word).toNat = 255 from rfl, hand, Nat.shiftLeft_eq]
  omega

theorem highByte_divxu (dest : Word) :
    (highByte (divxu 10 dest)).toNat = dest.toNat % 10 := by
  rw [toNat_highByte, toNat_divxu (by decide),
    show (10 : Byte).toNat = 10 from rfl]
  omega

theorem lowByte_divxu (dest : Word) :
    (lowByte (divxu 10 dest)).toNat = dest.toNat / 10 % 256 := by
  rw [toNat_lowByte, toNat_divxu (by decide),
    show (10 : Byte).toNat = 10 from rfl]
  omega

theorem toNat_quotient (dest : Word) (hdest : dest.toNat < 2560) :
    ((lowByte (divxu 10 dest)).setWidth 16).toNat = dest.toNat / 10 := by
  rw [BitVec.toNat_setWidth, lowByte_divxu]
  omega

theorem div_ten (n : ℕ) : n / 10 =
    256 * (n / 256 / 10) + (256 * (n / 256 % 10) + n % 256) / 10 := by
  have hn : n = 256 * (n / 256 % 10) + n % 256 + 256 * (n / 256 / 10) * 10 := by
    omega
  calc n / 10
      = (256 * (n / 256 % 10) + n % 256 + 256 * (n / 256 / 10) * 10) / 10 :=
        congrArg (· / 10) hn
    _ = (256 * (n / 256 % 10) + n % 256) / 10 + 256 * (n / 256 / 10) :=
        Nat.add_mul_div_right _ _ (by decide)
    _ = _ := Nat.add_comm _ _

end Division

section Number

/-- The registers of the format, and the number they stand for. -/
structure Format (r4h r4l : Byte) (numeral : Numeral) : Prop where
  value_le : numeral.value ≤ 9999
  width_le : numeral.width ≤ 4
  lt_width : ∀ place < 4, place < numeral.width ↔
    place ≤ numeral.decimals ∨ numeral.value / 10 ^ place ≠ 0 ∨ 1 < r4l
  decimals : numeral.decimals = r4h.toNat - 2
  place_le : r4h.toNat ≤ 5
  negative : numeral.negative = decide (r4l < 1)

variable {r4h r4l : Byte} {numeral : Numeral} {bytes r : DisplayBytes}
  {r6 : Word}

/-- The number ends here, and the sign follows. -/
theorem Format.written_storeSign (h : Format r4h r4l numeral) (place : Fin 4)
    (hwidth : place < numeral.width + 1) (hpoint : numeral.decimals < place)
    (hzero : numeral.value / 10 ^ (place : ℕ) = 0) (hsigned : ¬ 1 < r4l)
    {points : ℕ}
    (hbegun : Begun numeral.value numeral.decimals place points bytes r)
    (hpoints : (place : ℕ) ≤ points + 1) {reg j : ℕ} (hj : j < 8)
    (hitem : digitItem place.succ .middle = 8 * reg + j) :
    Written numeral bytes (storeBit reg j (r4l < 1) r) := by
  have hlast := h.lt_width place place.isLt
  have heq : numeral.width = place := by
    have hnot : ¬ (place : ℕ) < numeral.width := by
      rw [hlast]
      push Not
      exact ⟨hpoint, hzero, hsigned⟩
    omega
  have hnumeral : numeral =
      ⟨decide (r4l < 1), numeral.value, place, numeral.decimals⟩ := by
    rw [← h.negative, ← heq]
  rw [hnumeral]
  exact hbegun.storeSign (by omega) place rfl hj hitem _

theorem Format.written_fourthDigit (h : Format r4h r4l numeral)
    (hr6 : r6.toNat = numeral.value / 10 ^ 3) (hwidth : 3 < numeral.width)
    (hbegun : Begun numeral.value numeral.decimals 3 2 bytes r) :
    Written numeral bytes (fourthDigit r4h r4l r6 r) := by
  have hvalue := h.value_le
  have hplace := h.place_le
  have hdecimals := h.decimals
  have hwidth : numeral.width = 4 := by have := h.width_le; omega
  have hnumeral : numeral =
      ⟨decide (r4l < 1), numeral.value, 4, numeral.decimals⟩ := by
    rw [← h.negative, ← hwidth]
  have hdigit := hbegun.storeDigit 3 rfl r6.toNat
    (by change _ = _ / 10 ^ 3 % 10; omega)
  rw [hnumeral]
  refine Begun.storeMinus ?_ (by omega) _
  by_cases hpoint : r4h = 5
  · rw [if_pos hpoint]
    refine hdigit.storePoint 2 rfl _ _ _ (by decide) rfl ?_
    have hfive : r4h.toNat = 5 := congrArg BitVec.toNat hpoint
    symm
    apply decide_eq_true
    change _ = 2 + 1
    omega
  · rw [if_neg hpoint]
    have hne : r4h.toNat ≠ 5 := fun heq => hpoint (BitVec.eq_of_toNat_eq heq)
    exact hdigit.skipPoint (by omega)

theorem Format.written_thirdDigit (h : Format r4h r4l numeral)
    (hr6 : r6.toNat = numeral.value / 10 ^ 2) (hwidth : 2 < numeral.width)
    (hbegun : Begun numeral.value numeral.decimals 2 1 bytes r) :
    Written numeral bytes (thirdDigit r4h r4l r6 r) := by
  have hvalue := h.value_le
  have hdecimals := h.decimals
  have hmore := h.lt_width 3 (by decide)
  have hdigit := hbegun.storeDigit 2 rfl (r6.toNat % 10)
    (by rw [hr6]; rfl)
  rw [← highByte_divxu] at hdigit
  have hquotient := toNat_quotient r6 (by omega)
  have hnext : ((lowByte (divxu 10 r6)).setWidth 16).toNat =
      numeral.value / 10 ^ 3 := by
    rw [hquotient, hr6]
    omega
  simp only [thirdDigit]
  by_cases hplace : (4 : Byte) < r4h
  · have hlt : 4 < r4h.toNat := hplace
    rw [if_pos hplace]
    exact h.written_fourthDigit hnext (hmore.2 (by omega))
      (hdigit.skipPoint (by omega))
  · have hge : ¬ 4 < r4h.toNat := hplace
    rw [if_neg hplace]
    have hpoint := hdigit.storePoint 1 rfl r2l 6 (!decide (r4h < 4))
      (by decide) rfl (by
        have hlt : r4h < 4 ↔ r4h.toNat < 4 := Iff.rfl
        rw [← decide_not, decide_eq_decide, hlt]
        change _ ↔ _ = 1 + 1
        omega)
    split_ifs with hrest
    · refine h.written_fourthDigit hnext (hmore.2 (Or.inr ?_)) hpoint
      refine hrest.imp (fun hne => ?_) id
      rw [← hnext]
      exact fun hzero => hne (BitVec.eq_of_toNat_eq hzero)
    · push Not at hrest
      have hzero : numeral.value / 10 ^ 3 = 0 := by
        rw [← hnext, hrest.1]
        rfl
      exact h.written_storeSign 3 (by omega) (by change _ < 3; omega) hzero
        hrest.2 hpoint (by decide) (by decide) rfl

theorem Format.written_secondDigit (h : Format r4h r4l numeral)
    (hr6 : r6.toNat = numeral.value / 10) (hwidth : 1 < numeral.width)
    (hbegun : Begun numeral.value numeral.decimals 1 0 bytes r) :
    Written numeral bytes (secondDigit r4h r4l r6 r) := by
  have hvalue := h.value_le
  have hdecimals := h.decimals
  have hmore := h.lt_width 2 (by decide)
  have hdigit := hbegun.storeDigit 1 rfl (r6.toNat % 10)
    (by rw [hr6]; rfl)
  rw [← highByte_divxu] at hdigit
  have hquotient := toNat_quotient r6 (by omega)
  have hnext : ((lowByte (divxu 10 r6)).setWidth 16).toNat =
      numeral.value / 10 ^ 2 := by
    rw [hquotient, hr6]
    omega
  simp only [secondDigit]
  by_cases hplace : (3 : Byte) < r4h
  · have hlt : 3 < r4h.toNat := hplace
    rw [if_pos hplace]
    exact h.written_thirdDigit hnext (hmore.2 (by omega))
      (hdigit.skipPoint (by omega))
  · have hge : ¬ 3 < r4h.toNat := hplace
    rw [if_neg hplace]
    have hpoint := hdigit.storePoint 0 rfl r2h 6 (!decide (r4h < 3))
      (by decide) rfl (by
        have hlt : r4h < 3 ↔ r4h.toNat < 3 := Iff.rfl
        rw [← decide_not, decide_eq_decide, hlt]
        change _ ↔ _ = 0 + 1
        omega)
    split_ifs with hrest
    · refine h.written_thirdDigit hnext (hmore.2 (Or.inr ?_)) hpoint
      refine hrest.imp (fun hne => ?_) id
      rw [← hnext]
      exact fun hzero => hne (BitVec.eq_of_toNat_eq hzero)
    · push Not at hrest
      have hzero : numeral.value / 10 ^ 2 = 0 := by
        rw [← hnext, hrest.1]
        rfl
      exact h.written_storeSign 2 (by omega) (by change _ < 2; omega) hzero
        hrest.2 hpoint (by decide) (by decide) rfl

theorem Format.written_firstDigit (h : Format r4h r4l numeral)
    (hr6 : r6.toNat = numeral.value)
    (hbegun : Begun numeral.value numeral.decimals 0 0 bytes r) :
    Written numeral bytes (firstDigit r4h r4l r6 r) := by
  have hvalue := h.value_le
  have hdecimals := h.decimals
  have hfirst : 0 < numeral.width :=
    (h.lt_width 0 (by decide)).2 (Or.inl (Nat.zero_le _))
  have hmore := h.lt_width 1 (by decide)
  simp only [firstDigit]
  generalize hr5 : divxu 10 ((highByte r6).setWidth 16) = r5
  generalize hquotient : divxu 10 (highByte r5 ++ lowByte r6) = quotient
  have hhigh : ((highByte r6).setWidth 16).toNat = r6.toNat / 256 := by
    rw [BitVec.toNat_setWidth, toNat_highByte]
    omega
  -- the remainder of the high byte goes in front of the low byte
  have hdest : (highByte r5 ++ lowByte r6).toNat =
      256 * (r6.toNat / 256 % 10) + r6.toNat % 256 := by
    rw [toNat_append, ← hr5, highByte_divxu, hhigh, toNat_lowByte]
  have hdigitEq : (highByte quotient).toNat = r6.toNat % 10 := by
    rw [← hquotient, highByte_divxu, hdest]
    omega
  have hnext : (lowByte r5 ++ lowByte quotient).toNat =
      numeral.value / 10 := by
    rw [toNat_append, ← hr5, ← hquotient, lowByte_divxu, lowByte_divxu, hhigh,
      hdest, ← hr6, div_ten r6.toNat, Nat.mod_eq_of_lt (by omega),
      Nat.mod_eq_of_lt (by omega)]
  have hdigit := hbegun.storeDigit 0 rfl (highByte quotient).toNat
    (by rw [hdigitEq, hr6]; exact congrArg (· % 10) (Nat.div_one _).symm)
  split_ifs with hrest
  · refine h.written_secondDigit hnext (hmore.2 ?_) hdigit
    refine hrest.imp (fun hlt => ?_) (Or.imp (fun hne => ?_) id)
    · have hlt : 2 < r4h.toNat := hlt
      omega
    · rw [pow_one, ← hnext]
      exact fun hzero => hne (BitVec.eq_of_toNat_eq hzero)
  · push Not at hrest
    have hge : ¬ 2 < r4h.toNat := hrest.1
    have hzero : numeral.value / 10 ^ 1 = 0 := by
      rw [pow_one, ← hnext, hrest.2.1]
      rfl
    exact h.written_storeSign 1 (by omega) (by change _ < 1; omega) hzero
      hrest.2.2 hdigit (by decide) (by decide) rfl

theorem filled_clearNumber (m : Ram) (item : ℕ) :
    filled (clearNumber m) item =
      (filled m.displayBytes item && filled otherBits item) :=
  BitVec.getLsbD_and

theorem begun_clearNumber (value decimals : ℕ) (m : Ram) :
    Begun value decimals 0 0 m.displayBytes (clearNumber m) where
  digit := fun place segment => by
    have hcleared : ∀ (place : Fin 4) segment,
        filled otherBits (digitItem place.succ segment) = false := by
      decide
    rw [filled_clearNumber, hcleared, Bool.and_false,
      if_neg (Nat.not_lt_zero _)]
    rfl
  point := fun place => by
    have hcleared : ∀ place, filled otherBits (pointItem place) = false := by
      decide
    rw [filled_clearNumber, hcleared, Bool.and_false]
    simp
  minus := by
    rw [filled_clearNumber, show filled otherBits minusItem = false by decide,
      Bool.and_false]
  other := fun item hlt hminus hpoint hdigits => by
    have hkept : ∀ item : Fin 72, (item : ℕ) ≠ minusItem →
        (∀ place, (item : ℕ) ≠ pointItem place) →
        (∀ (place : Fin 4) segment, (item : ℕ) ≠ digitItem place.succ segment) →
          filled otherBits item = true := by
      decide
    rw [filled_clearNumber, hkept ⟨item, hlt⟩ hminus hpoint hdigits,
      Bool.and_true]

theorem toNat_commaPlace_le (comma : Word) : (commaPlace comma).toNat ≤ 5 := by
  unfold commaPlace
  split_ifs with h
  · have hlt : (lowByte comma).toNat < 6 := h.2
    omega
  · decide

theorem toNat_magnitude (r4l : Byte) (counter : Word) :
    (magnitude r4l counter).toNat =
      min (if r4l = 1 then counter.toInt.natAbs else counter.toNat) 9999 := by
  have hmin (r6 : Word) : (if r6 ≤ 9999 then r6 else 9999 : Word).toNat =
      min r6.toNat 9999 := by
    split_ifs with hle
    · exact (min_eq_left hle).symm
    · exact (min_eq_right (Nat.le_of_not_le hle)).symm
  rw [magnitude, hmin]
  congr 1
  have hint := BitVec.toInt_eq_msb_cond counter
  have hlt := counter.isLt
  have hmsb := BitVec.msb_eq_decide counter
  by_cases hsigned : r4l = 1
  · rw [if_pos hsigned]
    cases hneg : counter.msb with
    | true =>
        rw [hneg] at hint hmsb
        have hge := of_decide_eq_true hmsb.symm
        have hnot : ~~~counter + 1 = -counter :=
          (BitVec.neg_eq_not_add counter).symm
        rw [if_pos ⟨hsigned, rfl⟩, hnot, BitVec.toNat_neg]
        rw [if_pos rfl] at hint
        omega
    | false =>
        rw [hneg, if_neg Bool.false_ne_true] at hint
        rw [if_neg (by simp)]
        omega
  · rw [if_neg hsigned, if_neg fun h => hsigned h.1]

/-- The leading digit and those up to the point are the digits written. -/
theorem lt_max_length {value decimals place : ℕ} :
    place < max (Nat.digits 10 value).length (decimals + 1) ↔
      place ≤ decimals ∨ value / 10 ^ place ≠ 0 := by
  have hlength : place < (Nat.digits 10 value).length ↔
      10 ^ place ≤ value := by
    rw [← not_le, Nat.digits_length_le_iff (by decide), not_lt]
  have hpos : 0 < 10 ^ place := Nat.pow_pos (by decide)
  rw [lt_max_iff, hlength, Nat.lt_succ_iff, Ne, Nat.div_eq_zero_iff, or_comm]
  omega

theorem format_numeralOf {r4l : Byte} (hr4l : r4l = 0x01 ∨ r4l = 0x1f)
    (counter comma : Word) :
    Format (commaPlace comma) (signOf r4l counter)
      (numeralOf (r4l = 0x01) counter comma) := by
  rcases hr4l with rfl | rfl
  · have hsign : ¬ 1 < signOf 0x01 counter := by
      unfold signOf
      split_ifs <;> decide
    have hvalue : (numeralOf true counter comma).value ≤ 9999 :=
      min_le_right _ _
    have hlength : (Nat.digits 10 (numeralOf true counter comma).value).length ≤
        4 := (Nat.digits_length_le_iff (by decide) _).2 (by omega)
    have hplace : (numeralOf true counter comma).decimals ≤ 3 := by
      have := toNat_commaPlace_le comma
      change _ - 2 ≤ 3
      omega
    exact {
      value_le := hvalue
      width_le := max_le hlength (Nat.succ_le_succ hplace)
      lt_width := fun place _ => by
        rw [or_iff_left hsign]
        exact lt_max_length
      decimals := rfl
      place_le := toNat_commaPlace_le comma
      negative := by
        unfold signOf
        cases hmsb : counter.msb <;> simp [numeralOf, hmsb] }
  · exact {
      value_le := min_le_right _ _
      width_le := le_refl 4
      lt_width := fun place hlt =>
        iff_of_true hlt (Or.inr (Or.inr (by simp [signOf])))
      decimals := rfl
      place_le := toNat_commaPlace_le comma
      negative := by simp [numeralOf, signOf] }

theorem display_add_injective {idx idx' : ℕ} (hidx : idx < 9)
    (hidx' : idx' < 9)
    (h : lcdDisplay + BitVec.ofNat 16 idx = lcdDisplay + BitVec.ofNat 16 idx') :
    idx = idx' := by
  have hmod := congrArg BitVec.toNat ((BitVec.add_right_inj _).1 h)
  rw [BitVec.toNat_ofNat, BitVec.toNat_ofNat] at hmod
  omega

theorem storeBytes_memory {idxs : List ℕ} (hidxs : ∀ idx ∈ idxs, idx < 9)
    (r : DisplayBytes) (m : Ram) {addr : Word}
    (haddr : ∀ idx < 9, addr ≠ lcdDisplay + BitVec.ofNat 16 idx) :
    storeBytes idxs r m addr = m addr := by
  induction idxs generalizing m with
  | nil => rfl
  | cons idx idxs ih =>
      have hrest := ih (fun i hi => hidxs i (List.mem_cons_of_mem _ hi))
        (m.set (lcdDisplay + BitVec.ofNat 16 idx) (r idx))
      exact hrest.trans
        (Ram.set_of_ne (haddr idx (hidxs idx List.mem_cons_self)))

theorem storeBytes_display {idxs : List ℕ} (hidxs : ∀ idx ∈ idxs, idx < 9)
    (r : DisplayBytes) (m : Ram) {idx : ℕ} (hidx : idx < 9) :
    (storeBytes idxs r m).displayBytes idx =
      if idx ∈ idxs then r idx else m.displayBytes idx := by
  induction idxs generalizing m with
  | nil => rfl
  | cons i idxs ih =>
      have hrest := ih (fun i hi => hidxs i (List.mem_cons_of_mem _ hi))
        (m.set (lcdDisplay + BitVec.ofNat 16 i) (r i))
      refine hrest.trans ?_
      have hi := hidxs i List.mem_cons_self
      unfold Ram.displayBytes
      by_cases heq : idx = i
      · subst heq
        rw [Ram.set_self, if_pos List.mem_cons_self, ite_self]
      · rw [Ram.set_of_ne fun h => heq (display_add_injective hidx hi h)]
        simp only [List.mem_cons, heq, false_or]

theorem filled_storeBytes {idxs : List ℕ} (hidxs : ∀ idx ∈ idxs, idx < 9)
    (r : DisplayBytes) (m : Ram) {item : ℕ} (hitem : item < 72) :
    filled (storeBytes idxs r m).displayBytes item =
      if item / 8 ∈ idxs then filled r item
        else filled m.displayBytes item := by
  unfold filled
  rw [storeBytes_display hidxs r m (by omega)]
  split_ifs <;> rfl

/-- The byte that is not written holds no item of the number. -/
theorem Written.storeBytes {m : Ram}
    (h : Written numeral m.displayBytes r) :
    Written numeral m.displayBytes
      (storeBytes [r0h, r0l, r1h, r1l, r2h, r2l, r3h, r3l] r
        m).displayBytes := by
  have hsame (item : ℕ) (hitem : item < 72) :
      filled (Rom.storeBytes [r0h, r0l, r1h, r1l, r2h, r2l, r3h, r3l] r
        m).displayBytes item = filled r item := by
    rw [filled_storeBytes (by decide) r m hitem]
    split_ifs with hmem
    · rfl
    · have hother : ∀ item : Fin 72,
          (item : ℕ) / 8 ∉ [r0h, r0l, r1h, r1l, r2h, r2l, r3h, r3l] →
          (item : ℕ) ≠ minusItem ∧ (∀ place, (item : ℕ) ≠ pointItem place) ∧
            ∀ (place : Fin 4) segment,
              (item : ℕ) ≠ digitItem place.succ segment := by
        decide
      obtain ⟨hminus, hpoint, hdigits⟩ := hother ⟨item, hitem⟩ hmem
      exact (h.others item hitem hminus hpoint hdigits).symm
  have hdigit : ∀ place segment, digitItem place segment < 72 := by decide
  have hpoint : ∀ place, pointItem place < 72 := by decide
  exact {
    digits := fun place segment =>
      (hsame _ (hdigit _ _)).trans (h.digits place segment)
    points := fun place => (hsame _ (hpoint place)).trans (h.points place)
    minus := (hsame _ (by decide)).trans h.minus
    others := fun item hitem hminus hpoint hdigits =>
      (hsame item hitem).trans (h.others item hitem hminus hpoint hdigits) }

theorem lcdNumDigit_displayed {counter : Word} (hcounter : counter < 10)
    (m : Ram) :
    (∀ segment, filled (lcdNumDigit counter m).displayBytes
      (digitItem 0 segment) = numeralSegment counter.toNat segment) ∧
    ∀ item < 72, (∀ segment, item ≠ digitItem 0 segment) →
      filled (lcdNumDigit counter m).displayBytes item =
        filled m.displayBytes item := by
  have hlt : counter.toNat < 10 := hcounter
  have hhigh : highByte counter = 0 := by
    apply BitVec.eq_of_toNat_eq
    rw [toNat_highByte, Nat.div_eq_of_lt (by omega)]
    rfl
  have hlow : ¬ (10 : Byte) ≤ lowByte counter := by
    change ¬ 10 ≤ (lowByte counter).toNat
    rw [toNat_lowByte]
    omega
  rw [lcdNumDigit, if_neg (not_or_intro hlow (not_not_intro hhigh))]
  simp only
  constructor
  · intro segment
    have hitem : ∀ segment, digitItem 0 segment < 72 ∧
        digitItem 0 segment / 8 ∈ [1, 2, 4] := by
      decide
    rw [filled_storeBytes (by decide) _ m (hitem segment).1,
      if_pos (hitem segment).2, filled_storeDigit]
    exact numeralSegment_eq ⟨counter.toNat, hlt⟩ segment
  · intro item hitem hdigit
    have hkept : ∀ item : Fin 72,
        (∀ segment, (item : ℕ) ≠ digitItem 0 segment) →
          filled otherProgramBits item = true := by
      decide
    rw [filled_storeBytes (by decide) _ m hitem,
      filled_storeDigit_other _ _ hdigit]
    split_ifs
    · refine BitVec.getLsbD_and.trans ?_
      have hbit := hkept ⟨item, hitem⟩ hdigit
      unfold filled at hbit
      rw [hbit, Bool.and_true]
      rfl
    · rfl

theorem lcdNumDigit_large {counter : Word} (hcounter : ¬ counter < 10)
    (m : Ram) : lcdNumDigit counter m = m := by
  have hge : ¬ counter.toNat < 10 := hcounter
  rw [lcdNumDigit, if_pos]
  by_cases hhigh : highByte counter = 0
  · left
    have hzero : counter.toNat / 256 = 0 := by
      rw [← toNat_highByte, hhigh]
      rfl
    change 10 ≤ (lowByte counter).toNat
    rw [toNat_lowByte]
    omega
  · exact Or.inr hhigh

theorem lcdNumDigit_memory (counter : Word) (m : Ram) {addr : Word}
    (haddr : ∀ idx < 9, addr ≠ lcdDisplay + BitVec.ofNat 16 idx) :
    lcdNumDigit counter m addr = m addr := by
  unfold lcdNumDigit
  split_ifs
  · rfl
  · exact storeBytes_memory (by decide) _ m haddr

/-- Every number comes out on the display as it is written, by its format, and
everything else stays on the display as it is. -/
theorem lcdNumber_displayed (r6 counter comma : Word) (m : Ram) :
    Displayed r6 counter comma m (lcdNumber r6 counter comma m).2 where
  memory := fun addr haddr => by
    unfold lcdNumber
    split_ifs
    · rfl
    · exact storeBytes_memory (by decide) _ m haddr
    · exact lcdNumDigit_memory counter m haddr
    · rfl
  number := fun hr6 => by
    have hhigh : highByte r6 = 0x30 := by rcases hr6 with rfl | rfl <;> rfl
    have hlow : lowByte r6 = 0x01 ∨ lowByte r6 = 0x1f := by
      rcases hr6 with rfl | rfl
      · exact Or.inl rfl
      · exact Or.inr rfl
    have hsigned : decide (r6 = 0x3001) = decide (lowByte r6 = 0x01) := by
      rcases hr6 with rfl | rfl <;> rfl
    rw [lcdNumber, if_neg (not_not_intro hhigh), if_pos hlow, hsigned]
    have hformat := format_numeralOf hlow counter comma
    exact (hformat.written_firstDigit (by
      rw [toNat_magnitude]
      simp [numeralOf]) (begun_clearNumber _ _ m)).storeBytes
  program := by
    rintro rfl hcounter
    exact lcdNumDigit_displayed hcounter m
  program_large := by
    rintro rfl hcounter
    exact lcdNumDigit_large hcounter m
  unknown := fun hr6 => by
    have hr6 (low : Byte) (hlow : lowByte r6 = low) (hhigh : highByte r6 = 0x30)
        (hcode : (0x30 : Byte) ++ low ∈ [(0x3001 : Word), 0x301f, 0x3017]) :
        False := by
      rw [← highByte_append_lowByte r6, hlow, hhigh] at hr6
      exact hr6 hcode
    unfold lcdNumber
    split_ifs with hhigh hnumber hprogram
    · rfl
    · rcases hnumber with hlow | hlow
      · exact (hr6 _ hlow (not_not.1 hhigh) (by decide)).elim
      · exact (hr6 _ hlow (not_not.1 hhigh) (by decide)).elim
    · exact (hr6 _ hprogram (not_not.1 hhigh) (by decide)).elim
    · rfl

end Number

end Rom

end BrickEmu
