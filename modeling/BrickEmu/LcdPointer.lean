import BrickEmu.LcdRefresh

/-!
# Where the display data go

Every data byte on the bus ends in one call of `lcd_display`, at the place
that the data pointer stands for.  The pointer is loaded with five bits, of
which the display has columns for 0 to 23 only, and it advances by two with
every byte.  Nothing stops it at the end of the display.
-/

namespace BrickEmu

/-- What a byte on the bus means for the data pointer. -/
inductive LcdCommand where
  | load (ptr : ℕ)
  | data (byte : Byte)
  deriving DecidableEq

namespace Lcd

/-- The display before the first write to port 6. -/
def powerOn : Lcd :=
  ⟨fun _ => 0, 0, 0, 0, 0xff, 0, 0, 0⟩

/-- The call of `lcd_display` in a write to port 6. -/
def displayCall (val : Byte) (lcd : Lcd) : Option (ℤ × Byte) :=
  match lcd.decodes val with
  | some byte =>
      if lcd.i2cState = 2 ∧ lcd.lcdSubaddr = 0 then
        some ((lcd.lcdPtr.sshiftRight 1).toInt, byte)
      else none
  | none => none

def displayCalls : List Byte → Lcd → List (ℤ × Byte)
  | [], _ => []
  | val :: vals, lcd =>
      (lcd.displayCall val).toList ++ displayCalls vals (lcd.setPort6 val)

/-- The command or the data byte that is complete with a write to port 6. -/
def command (val : Byte) (lcd : Lcd) : Option LcdCommand :=
  match lcd.decodes val with
  | some byte =>
      if lcd.i2cState = 1 ∧ byte &&& 0x60 = 0 then
        some (.load (byte &&& 0x1f).toNat)
      else if lcd.i2cState = 2 ∧ lcd.lcdSubaddr = 0 then some (.data byte)
      else none
  | none => none

def commands : List Byte → Lcd → List LcdCommand
  | [], _ => []
  | val :: vals, lcd =>
      (lcd.command val).toList ++ commands vals (lcd.setPort6 val)

section Step

variable {lcd : Lcd} {val byte : Byte}

theorem setPort6_of_decodes (h : lcd.decodes val = some byte) :
    byte = lcd.i2cData ∧
      lcd.setPort6 val =
        { (i2cByte { lcd with i2cBitnr := lcd.i2cBitnr + 1 }).1 with
          i2cBitnr := 0xff, i2cData := 0, port6 := val } := by
  rw [decodes] at h
  split_ifs at h with hbyte
  obtain ⟨hclock, hlow, hstate, hbits⟩ := hbyte
  cases h
  refine ⟨rfl, ?_⟩
  rw [setPort6, if_neg hclock, i2cStep, if_pos ⟨hlow, hstate⟩]
  simp only [if_neg hbits]

/-- A write that completes no byte leaves the contents and the pointer. -/
theorem setPort6_of_not_decodes (h : lcd.decodes val = none) :
    (lcd.setPort6 val).lcdData = lcd.lcdData ∧
      (lcd.setPort6 val).lcdPtr = lcd.lcdPtr := by
  rw [decodes] at h
  split_ifs at h with hbyte
  by_cases hclock : val &&& 0x20 = 0
  · rw [setPort6, if_pos hclock]
    exact ⟨rfl, rfl⟩
  · rw [setPort6, if_neg hclock, i2cStep]
    by_cases hrise : lcd.port6 &&& 0x20 = 0 ∧ lcd.i2cState.msb = false
    · have hbits : lcd.i2cBitnr + 1 < 8 := by
        by_contra hbits
        exact hbyte ⟨hclock, hrise.1, hrise.2, hbits⟩
      rw [if_pos hrise]
      dsimp only
      rw [if_pos hbits]
      exact ⟨rfl, rfl⟩
    · rw [if_neg hrise]
      split_ifs <;> exact ⟨rfl, rfl⟩

section Byte

theorem i2cByte_load (hstate : lcd.i2cState = 1)
    (hload : lcd.i2cData &&& 0x60 = 0) :
    (i2cByte lcd).1.lcdData = lcd.lcdData ∧
      (i2cByte lcd).1.lcdPtr = lcd.i2cData &&& 0x1f := by
  have hnat : (lcd.i2cData &&& 0x60).toNat = 0 := congrArg BitVec.toNat hload
  rw [i2cByte, if_neg (by rw [hstate]; decide), if_pos hstate, hnat]
  exact ⟨rfl, rfl⟩

theorem i2cByte_command (hstate : lcd.i2cState = 1)
    (hload : lcd.i2cData &&& 0x60 ≠ 0) :
    (i2cByte lcd).1.lcdData = lcd.lcdData ∧
      (i2cByte lcd).1.lcdPtr = lcd.lcdPtr := by
  rw [i2cByte, if_neg (by rw [hstate]; decide), if_pos hstate]
  dsimp only
  split
  · exact ⟨rfl, rfl⟩
  · next hnat => exact absurd (BitVec.eq_of_toNat_eq hnat) hload
  · exact ⟨rfl, rfl⟩
  · exact ⟨rfl, rfl⟩

theorem i2cByte_data (hstate : lcd.i2cState = 2)
    (hsub : lcd.lcdSubaddr = 0) :
    (i2cByte lcd).1.lcdData = Function.update lcd.lcdData
        (lcd.lcdPtr.sshiftRight 1).toInt lcd.i2cData ∧
      (i2cByte lcd).1.lcdPtr = lcd.lcdPtr + 2 := by
  rw [i2cByte, if_neg (by rw [hstate]; decide),
    if_neg (by rw [hstate]; decide), if_pos hstate, if_pos hsub]
  dsimp only
  rw [lcdDisplay_eq]
  exact ⟨rfl, rfl⟩

theorem i2cByte_other (hstate : lcd.i2cState ≠ 1)
    (hdata : ¬(lcd.i2cState = 2 ∧ lcd.lcdSubaddr = 0)) :
    (i2cByte lcd).1.lcdData = lcd.lcdData ∧
      (i2cByte lcd).1.lcdPtr = lcd.lcdPtr := by
  rw [i2cByte, if_neg hstate]
  by_cases h0 : lcd.i2cState = 0
  · rw [if_pos h0]
    exact ⟨rfl, rfl⟩
  · rw [if_neg h0]
    by_cases h2 : lcd.i2cState = 2
    · rw [if_pos h2, if_neg fun hsub => hdata ⟨h2, hsub⟩]
      exact ⟨rfl, rfl⟩
    · rw [if_neg h2]
      exact ⟨rfl, rfl⟩

/-- What a complete byte does to the contents and the pointer. -/
theorem i2cByte_pointer (lcd : Lcd) :
    (i2cByte lcd).1.lcdData =
        (if lcd.i2cState = 2 ∧ lcd.lcdSubaddr = 0 then
          Function.update lcd.lcdData (lcd.lcdPtr.sshiftRight 1).toInt
            lcd.i2cData
        else lcd.lcdData) ∧
      (i2cByte lcd).1.lcdPtr =
        if lcd.i2cState = 1 ∧ lcd.i2cData &&& 0x60 = 0 then
          lcd.i2cData &&& 0x1f
        else if lcd.i2cState = 2 ∧ lcd.lcdSubaddr = 0 then lcd.lcdPtr + 2
        else lcd.lcdPtr := by
  by_cases h1 : lcd.i2cState = 1
  · have hdata : ¬(lcd.i2cState = 2 ∧ lcd.lcdSubaddr = 0) := by simp [h1]
    rw [if_neg hdata, if_neg hdata]
    by_cases hload : lcd.i2cData &&& 0x60 = 0
    · rw [if_pos ⟨h1, hload⟩]
      exact i2cByte_load h1 hload
    · rw [if_neg fun h => hload h.2]
      exact i2cByte_command h1 hload
  · rw [if_neg fun h : lcd.i2cState = 1 ∧ _ => h1 h.1]
    by_cases hdata : lcd.i2cState = 2 ∧ lcd.lcdSubaddr = 0
    · rw [if_pos hdata, if_pos hdata]
      exact i2cByte_data hdata.1 hdata.2
    · rw [if_neg hdata, if_neg hdata]
      exact i2cByte_other h1 hdata

end Byte

theorem setPort6_lcdPtr (val : Byte) (lcd : Lcd) :
    (lcd.setPort6 val).lcdPtr =
      match lcd.command val with
      | some (.load ptr) => BitVec.ofNat 8 ptr
      | some (.data _) => lcd.lcdPtr + 2
      | none => lcd.lcdPtr := by
  rw [command]
  cases hdecodes : lcd.decodes val with
  | none => exact (setPort6_of_not_decodes hdecodes).2
  | some byte =>
      obtain ⟨rfl, hset⟩ := setPort6_of_decodes hdecodes
      obtain ⟨-, hbyte⟩ :=
        i2cByte_pointer { lcd with i2cBitnr := lcd.i2cBitnr + 1 }
      rw [hset]
      refine hbyte.trans ?_
      dsimp only
      split_ifs
      · exact ((BitVec.ofNat_toNat 8 _).trans (BitVec.setWidth_eq _)).symm
      · rfl
      · rfl

theorem command_load_lt {ptr : ℕ} (h : lcd.command val = some (.load ptr)) :
    ptr < 32 := by
  rw [command] at h
  cases hdecodes : lcd.decodes val with
  | none =>
      rw [hdecodes] at h
      cases h
  | some byte =>
      rw [hdecodes] at h
      dsimp only at h
      split_ifs at h
      · cases h
        rw [BitVec.toNat_and]
        exact Nat.lt_succ_of_le Nat.and_le_right
      · cases h

/-- A call belongs to a data byte. -/
theorem displayCall_eq (val : Byte) (lcd : Lcd) :
    lcd.displayCall val =
      match lcd.command val with
      | some (.data byte) => some ((lcd.lcdPtr.sshiftRight 1).toInt, byte)
      | _ => none := by
  rw [displayCall, command]
  cases lcd.decodes val with
  | none => rfl
  | some byte =>
      by_cases hload : lcd.i2cState = 1 ∧ byte &&& 0x60 = 0
      · have hcall : ¬(lcd.i2cState = 2 ∧ lcd.lcdSubaddr = 0) := by
          simp [hload.1]
        simp only [if_pos hload, if_neg hcall]
      · simp only [if_neg hload]
        split_ifs <;> rfl

end Step

/-- Every data byte finds the pointer below the number of columns; `pos` is
where the pointer stands, without the limits of its type. -/
def Fits : ℕ → List LcdCommand → Prop
  | _, [] => True
  | _, .load ptr :: commands => Fits ptr commands
  | pos, .data _ :: commands => pos < 24 ∧ Fits (pos + 2) commands

/-- No more data bytes follow a load of the pointer than there are columns. -/
def LoadsFit (commands : List LcdCommand) : Prop :=
  ∀ before ptr bytes after, bytes ≠ [] →
    commands = before ++ .load ptr :: (bytes.map .data ++ after) →
      ptr + 2 * bytes.length < 26

section Fits

variable {pos : ℕ} {lcd : Lcd}

theorem shown_place (hpos : pos < 128) :
    ((BitVec.ofNat 8 pos).sshiftRight 1).toInt = (pos / 2 : ℕ) := by
  have hnat : (BitVec.ofNat 8 pos).toNat = pos := by
    rw [BitVec.toNat_ofNat]
    omega
  rw [BitVec.toInt_sshiftRight, Int.shiftRight_eq_div_pow,
    BitVec.toInt_eq_toNat_of_lt (by omega), hnat]
  rfl

/-- All calls of `lcd_display` stay inside the display exactly as long as the
pointer does before every data byte. -/
theorem displayCalls_fit_iff (vals : List Byte) (lcd : Lcd) (pos : ℕ)
    (hptr : lcd.lcdPtr = BitVec.ofNat 8 pos) (hpos : pos < 32) :
    (∀ call ∈ displayCalls vals lcd, 0 ≤ call.1 ∧ call.1 < 12) ↔
      Fits pos (commands vals lcd) := by
  induction vals generalizing lcd pos with
  | nil => exact iff_of_true (fun _ h => absurd h List.not_mem_nil) trivial
  | cons val vals ih =>
      have hnext := setPort6_lcdPtr val lcd
      have hcall := displayCall_eq val lcd
      rw [displayCalls, commands]
      cases hcommand : lcd.command val with
      | none =>
          rw [hcommand] at hnext hcall
          rw [hcall]
          exact ih _ pos (hnext.trans hptr) hpos
      | some command =>
          rw [hcommand] at hnext hcall
          cases command with
          | load ptr =>
              rw [hcall]
              exact ih _ ptr hnext (command_load_lt hcommand)
          | data byte =>
              have hplace :
                  (lcd.lcdPtr.sshiftRight 1).toInt = (pos / 2 : ℕ) := by
                rw [hptr]
                exact shown_place (by omega)
              rw [hcall, hplace]
              simp only [Option.toList_some, List.singleton_append,
                List.forall_mem_cons, Fits]
              by_cases hfits : pos < 24
              · have hplaced : (0 : ℤ) ≤ (pos / 2 : ℕ) ∧
                    ((pos / 2 : ℕ) : ℤ) < 12 := by omega
                refine and_congr (iff_of_true hplaced hfits) ?_
                apply ih _ (pos + 2) _ (by omega)
                rw [hnext, hptr, BitVec.ofNat_add]
                rfl
              · apply iff_of_false
                · intro h
                  have hbound := h.1.2
                  omega
                · exact fun h => hfits h.1

theorem loadsFit_load (pos ptr : ℕ) (commands : List LcdCommand) :
    LoadsFit (.load pos :: .load ptr :: commands) ↔
      LoadsFit (.load ptr :: commands) := by
  constructor
  · intro h before other bytes after hbytes hsplit
    apply h (.load pos :: before) other bytes after hbytes
    rw [hsplit, List.cons_append]
  · intro h before other bytes after hbytes hsplit
    cases before with
    | nil =>
        cases bytes with
        | nil => contradiction
        | cons byte bytes => cases hsplit
    | cons first before =>
        exact h before other bytes after hbytes (List.cons.inj hsplit).2

theorem loadsFit_data (pos : ℕ) (byte : Byte) (commands : List LcdCommand) :
    LoadsFit (.load pos :: .data byte :: commands) ↔
      pos < 24 ∧ LoadsFit (.load (pos + 2) :: commands) := by
  constructor
  · intro h
    refine ⟨?_, fun before other bytes after hbytes hsplit => ?_⟩
    · have hone := h [] pos [byte] commands (List.cons_ne_nil _ _) rfl
      simp only [List.length_singleton] at hone
      omega
    · cases before with
      | nil =>
          obtain ⟨hptr, hrest⟩ := List.cons.inj hsplit
          cases hptr
          have hmore := h [] pos (byte :: bytes) after (List.cons_ne_nil _ _)
            (by rw [hrest]; rfl)
          rw [List.length_cons] at hmore
          omega
      | cons first before =>
          apply h (.load pos :: .data byte :: before) other bytes after hbytes
          rw [(List.cons.inj hsplit).2]
          rfl
  · rintro ⟨hpos, h⟩ before other bytes after hbytes hsplit
    cases before with
    | nil =>
        obtain ⟨hptr, hrest⟩ := List.cons.inj hsplit
        cases hptr
        cases bytes with
        | nil => contradiction
        | cons first bytes =>
            obtain ⟨-, hrest⟩ := List.cons.inj hrest
            rw [List.length_cons]
            by_cases hnil : bytes = []
            · rw [hnil, List.length_nil]
              omega
            · have hmore := h [] (pos + 2) bytes after hnil (by rw [hrest]; rfl)
              omega
    | cons first before =>
        obtain ⟨-, hrest⟩ := List.cons.inj hsplit
        cases before with
        | nil => cases hrest
        | cons second before =>
            apply h (.load (pos + 2) :: before) other bytes after hbytes
            rw [(List.cons.inj hrest).2]
            rfl

/-- The same in terms of the loads alone. -/
theorem fits_iff_loadsFit (pos : ℕ) (commands : List LcdCommand) :
    Fits pos commands ↔ LoadsFit (.load pos :: commands) := by
  induction commands generalizing pos with
  | nil =>
      refine iff_of_true trivial fun before ptr bytes after hbytes hsplit => ?_
      cases before with
      | nil =>
          cases bytes with
          | nil => contradiction
          | cons byte bytes => cases hsplit
      | cons first before =>
          cases before with
          | nil => cases hsplit
          | cons second before => cases hsplit
  | cons command commands ih =>
      cases command with
      | load ptr => exact (ih ptr).trans (loadsFit_load pos ptr commands).symm
      | data byte =>
          rw [loadsFit_data, ← ih]
          rfl

/-- From power-on, and for any values written to port 6, all calls of
`lcd_display` are for one of the twelve places exactly if no load of the
pointer, nor its first value 0, is followed by more data bytes than there are
columns left. -/
theorem displayCalls_inRange_iff (vals : List Byte) :
    (∀ call ∈ displayCalls vals powerOn, 0 ≤ call.1 ∧ call.1 < 12) ↔
      LoadsFit (.load 0 :: commands vals powerOn) := by
  rw [← fits_iff_loadsFit]
  exact displayCalls_fit_iff vals powerOn 0 rfl (by decide)

/-- The writes that clock a bit in, with the clock first low and then high. -/
def clockBit (bit : Bool) : List Byte :=
  if bit then [0x40, 0x60] else [0x00, 0x20]

def clockByte (byte : Byte) : List Byte :=
  ((List.range 8).flatMap fun i => clockBit (byte.getLsbD (7 - i))) ++
    clockBit false

/-- A start, the bytes and a stop. -/
def transfer (bytes : List Byte) : List Byte :=
  [0x60, 0x20] ++ bytes.flatMap clockByte ++ [0x00, 0x20, 0x60]

/-- The pointer is loaded with 24, and a byte follows. -/
theorem displayCalls_outOfRange :
    ¬∀ vals : List Byte, ∀ call ∈ displayCalls vals powerOn,
      0 ≤ call.1 ∧ call.1 < 12 := by
  intro hall
  have hcall : (12, 0xff) ∈
      displayCalls (transfer [0x7c, 0x18, 0xff]) powerOn := by
    decide +kernel
  exact absurd (hall _ _ hcall).2 (by decide)

end Fits

end Lcd

end BrickEmu
