import BrickEmu.Machine

/-!
# `debug_printf`

A program on the brick prints through the emulator: `debug_printf` finds the
format and its arguments on the stack of the program, scans the format with a
small state machine and formats into a buffer of 4096 characters.

The format and the strings of `%s` are the bytes of `memory` in front of the
next 0.  The format is taken out of `memory` at the start; what is unread of
it is a list, the head of which is the character `ch` of the source.  The
bytes that are read as arguments are recorded in a history variable, with the
variable or the conversion that gets them.
-/

namespace BrickEmu

inductive DpState where
  | default
  | flags
  | min
  | dot
  | max
  | mod
  | conv
  | done
  deriving DecidableEq

def DP_F_MINUS : Byte := 1 <<< 0
def DP_F_PLUS : Byte := 1 <<< 1
def DP_F_SPACE : Byte := 1 <<< 2
def DP_F_NUM : Byte := 1 <<< 3
def DP_F_ZERO : Byte := 1 <<< 4
def DP_F_UP : Byte := 1 <<< 5
def DP_F_UNSIGNED : Byte := 1 <<< 6

/-- The values of `cflags` that occur. -/
inductive DpModifier where
  | none
  | short
  | long
  deriving DecidableEq

/-- The conversions `debug_printf` knows. -/
inductive DpConversion where
  | d
  | i
  | o
  | u
  | upperX
  | x
  | c
  | s
  | p
  | percent
  deriving DecidableEq

def DpConversion.byte : DpConversion → Byte
  | d => 0x64
  | i => 0x69
  | o => 0x6f
  | u => 0x75
  | upperX => 0x58
  | x => 0x78
  | c => 0x63
  | s => 0x73
  | p => 0x70
  | percent => 0x25

/-- The labels of the inner `switch` for conversions. -/
def DpConversion.ofByte (ch : Byte) : Option DpConversion :=
  if ch = 0x64 then some d
  else if ch = 0x69 then some i
  else if ch = 0x6f then some o
  else if ch = 0x75 then some u
  else if ch = 0x58 then some upperX
  else if ch = 0x78 then some x
  else if ch = 0x63 then some c
  else if ch = 0x73 then some s
  else if ch = 0x70 then some p
  else if ch = 0x25 then some percent
  else none

/-- The flag of a character, which the source names in its `switch`. -/
def dpFlag (ch : Byte) : Option Byte :=
  if ch = 0x2d then some DP_F_MINUS
  else if ch = 0x2b then some DP_F_PLUS
  else if ch = 0x20 then some DP_F_SPACE
  else if ch = 0x23 then some DP_F_NUM
  else if ch = 0x30 then some DP_F_ZERO
  else none

def isdigit (ch : Byte) : Prop :=
  0x30 ≤ ch.toNat ∧ ch.toNat ≤ 0x39

instance (ch : Byte) : Decidable (isdigit ch) :=
  inferInstanceAs (Decidable (_ ∧ _))

def charToInt (ch : Byte) : ℤ :=
  (ch.toNat : ℤ) - 0x30

/-- The text at `addr`; the first argument is the number of bytes from there
to the end of `memory`. -/
def memoryText (memory : ℕ → Byte) : ℕ → ℕ → List Byte
  | 0, _ => []
  | count + 1, addr =>
      if memory addr = 0 then []
      else memory addr :: memoryText memory count (addr + 1)

/-- What is done with argument words: a `*` is read into `min` or `max`, a
conversion formats the words at its addresses. -/
inductive PrintfRead where
  | intoMin (addr : ℤ)
  | intoMax (addr : ℤ)
  | convert (ch : Byte) (addrs : List ℤ)
  deriving DecidableEq

/-! ## The output -/

/-- `buffer` up to `currlen`, which also counts the characters that do not
fit. -/
structure PrintfOutput where
  buffer : List Byte
  currlen : ℕ

namespace PrintfOutput

def maxlen : ℕ := 4096

def doprOutch (ch : Byte) (out : PrintfOutput) : PrintfOutput where
  buffer := if out.currlen < maxlen then out.buffer ++ [ch] else out.buffer
  currlen := out.currlen + 1

def puts (text : List Byte) (out : PrintfOutput) : PrintfOutput :=
  text.foldl (fun out ch => out.doprOutch ch) out

/-- The text printed at the end, behind the final 0 of `buffer`. -/
def text (out : PrintfOutput) : List Byte :=
  (out.buffer.take (maxlen - 1)).takeWhile (· ≠ 0)

def hasFlag (flags flag : Byte) : Bool :=
  flags &&& flag ≠ 0

/-- The loops of `fmtstr`.  The counter `cnt` cuts the text off at `max`. -/
def fmtstr (value : List Byte) (flags : Byte) (min max : ℤ)
    (out : PrintfOutput) : PrintfOutput :=
  let padlen := (min - value.length).toNat
  let padding := List.replicate padlen 0x20
  let text :=
    if hasFlag flags DP_F_MINUS then value ++ padding else padding ++ value
  out.puts (text.take max.toNat)

/-- The loop that fills `convert`, least significant digit first, with room
for 20 digits. -/
def convertDigits (caps : Bool) (base : ℕ) : ℕ → ℕ → List Byte
  | 0, _ => []
  | room + 1, uvalue =>
      let digit := uvalue % base
      let ch := BitVec.ofNat 8
        (if digit < 10 then 0x30 + digit
          else if caps then 0x41 + (digit - 10) else 0x61 + (digit - 10))
      if uvalue / base = 0 then [ch]
      else ch :: convertDigits caps base room (uvalue / base)

/-- The sign in front of a number. -/
def signvalue (value : ℤ) (flags : Byte) : List Byte :=
  if hasFlag flags DP_F_UNSIGNED then []
  else if value < 0 then [0x2d]
  else if hasFlag flags DP_F_PLUS then [0x2b]
  else if hasFlag flags DP_F_SPACE then [0x20]
  else []

def fmtint (value : ℤ) (base : ℕ) (min max : ℤ) (flags : Byte)
    (out : PrintfOutput) : PrintfOutput :=
  let max := if max < 0 then 0 else max
  let sign := signvalue value flags
  let negated := ¬hasFlag flags DP_F_UNSIGNED ∧ value < 0
  let uvalue := ((if negated then -value else value) % 2 ^ 64).toNat
  let convert := (convertDigits (hasFlag flags DP_F_UP) base 20 uvalue).take 19
  let place : ℤ := convert.length
  let spadlen := (min - Max.max max place - sign.length).toNat
  let zpadlen := (max - place).toNat
  let zero := hasFlag flags DP_F_ZERO
  let zpadlen := if zero then Nat.max zpadlen spadlen else zpadlen
  let spaces := List.replicate (if zero then 0 else spadlen) 0x20
  let minus := hasFlag flags DP_F_MINUS
  out.puts ((if minus then [] else spaces) ++ sign ++
    List.replicate zpadlen 0x30 ++ convert.reverse ++
    (if minus then spaces else []))

end PrintfOutput

/-! ## The scanner -/

/-- The local variables of `debug_printf`.  The source leaves it open which
of the two words of a long argument is read first. -/
structure Printf where
  machine : Machine
  state : DpState
  format : List Byte
  fp : ℤ
  min : ℤ
  max : ℤ
  flags : Byte
  cflags : DpModifier
  out : PrintfOutput
  reads : List PrintfRead

namespace Printf

/-- `ch = *format++` -/
def next (s : Printf) : Printf :=
  { s with format := s.format.tail }

def getWord (addr : ℤ) (s : Printf) : Word × Printf :=
  let (word, machine) := s.machine.getWord (BitVec.ofInt 16 addr)
  (word, { s with machine := machine })

def log (read : PrintfRead) (s : Printf) : Printf :=
  { s with reads := s.reads ++ [read] }

/-- `min = (short) GET_WORD(fp); fp += 2`, with what it stands for. -/
def starIntoMin (s : Printf) : Printf :=
  let (word, s') := s.getWord s.fp
  { s' with min := word.toInt, fp := s.fp + 2 }.log (.intoMin s.fp)

/-- The value of the conversions of integers, and the step over it. -/
def intArgument (ch : Byte) (signed : Bool) (s : Printf) : ℤ × Printf :=
  if s.cflags = .long then
    let (high, s') := s.getWord s.fp
    let (low, s'') := s'.getWord (s.fp + 2)
    let value : BitVec 32 := high ++ low
    (if signed then value.toInt else value.toNat,
      { s'' with fp := s.fp + 4 }.log (.convert ch [s.fp, s.fp + 2]))
  else
    let (word, s') := s.getWord s.fp
    (if signed then word.toInt else word.toNat,
      { s' with fp := s.fp + 2 }.log (.convert ch [s.fp]))

def fmtint (value : ℤ) (base : ℕ) (s : Printf) : Printf :=
  { s with out := s.out.fmtint value base s.min s.max s.flags }

/-- The arms of the conversions of integers. -/
def convertInt (ch : Byte) (signed : Bool) (base : ℕ) (s : Printf) :
    Printf :=
  let s := if signed then s else { s with flags := s.flags ||| DP_F_UNSIGNED }
  let (value, s') := s.intArgument ch signed
  s'.fmtint value base

def convertChar (ch : Byte) (s : Printf) : Printf :=
  let (word, s') := s.getWord s.fp
  { s' with
    out := s'.out.doprOutch (word.extractLsb' 0 8)
    fp := s.fp + 2 }.log (.convert ch [s.fp])

/-- `(NULL)` -/
def nullText : List Byte :=
  [0x28, 0x4e, 0x55, 0x4c, 0x4c, 0x29]

/-- The arm of `%s`, which leaves `fp` where it is. -/
def convertString (ch : Byte) (s : Printf) : Printf :=
  let (word, s') := s.getWord s.fp
  let addr := word.toNat
  let strvalue :=
    if addr = 0 then nullText
    else memoryText s'.machine.memory (0x10000 - addr) addr
  let max := if s.max = -1 then (strvalue.length : ℤ) else s.max
  let max := if 0 < s.min ∧ 0 ≤ max ∧ max < s.min then s.min else max
  { s' with
    max := max
    out := s'.out.fmtstr strvalue s.flags s.min max }.log (.convert ch [s.fp])

/-- The arm of `%p`, which leaves `fp` where it is. -/
def convertPointer (ch : Byte) (s : Printf) : Printf :=
  let (word, s') := s.getWord s.fp
  (s'.log (.convert ch [s.fp])).fmtint word.toNat 16

/-- The `switch` over the conversions. -/
def convert (ch : Byte) (s : Printf) : Printf :=
  match DpConversion.ofByte ch with
  | some .d => s.convertInt ch true 10
  | some .i => s.convertInt ch true 10
  | some .o => s.convertInt ch false 8
  | some .u => s.convertInt ch false 10
  | some .upperX =>
      { s with flags := s.flags ||| DP_F_UP }.convertInt ch false 16
  | some .x => s.convertInt ch false 16
  | some .c => s.convertChar ch
  | some .s => s.convertString ch
  | some .p => s.convertPointer ch
  | some .percent => { s with out := s.out.doprOutch ch }
  | none => s

/-- One pass of the loop. -/
def scanStep (s : Printf) : Printf :=
  let ch := s.format.headD 0
  if ch = 0 then { s with state := .done }
  else match s.state with
    | .default =>
        if ch = 0x25 then { s with state := .flags }.next
        else { s with out := s.out.doprOutch ch }.next
    | .flags =>
        match dpFlag ch with
        | some flag => { s with flags := s.flags ||| flag }.next
        | none => { s with state := .min }
    | .min =>
        if isdigit ch then { s with min := 10 * s.min + charToInt ch }.next
        else if ch = 0x2a then { s.starIntoMin with state := .dot }.next
        else { s with state := .dot }
    | .dot =>
        if ch = 0x2e then { s with state := .max }.next
        else { s with state := .mod }
    | .max =>
        if isdigit ch then
          let max := if s.max < 0 then 0 else s.max
          { s with max := 10 * max + charToInt ch }.next
        else if ch = 0x2a then { s.starIntoMin with state := .mod }.next
        else { s with state := .mod }
    | .mod =>
        if ch = 0x68 then { s with cflags := .short, state := .conv }.next
        else if ch = 0x6c then { s with cflags := .long, state := .conv }.next
        else { s with state := .conv }
    | .conv =>
        { s.convert ch with
          state := .default
          flags := 0
          cflags := .none
          min := 0
          max := -1 }.next
    | .done => s

/-- How far a state is from the next step to another character. -/
def rank : DpState → ℕ
  | .flags => 7
  | .min => 6
  | .dot => 5
  | .max => 4
  | .mod => 3
  | .conv => 2
  | .default => 1
  | .done => 0

theorem intArgument_format (ch : Byte) (signed : Bool) (s : Printf) :
    (s.intArgument ch signed).2.format = s.format := by
  rw [intArgument]
  split <;> rfl

theorem convertInt_format (ch : Byte) (signed : Bool) (base : ℕ)
    (s : Printf) :
    (s.convertInt ch signed base).format = s.format := by
  cases signed
  · exact intArgument_format ch false _
  · exact intArgument_format ch true s

theorem convert_format (ch : Byte) (s : Printf) :
    (s.convert ch).format = s.format := by
  rw [convert]
  split
  all_goals first
    | exact convertInt_format _ _ _ _
    | rfl

/-- A pass takes a character off the format, or goes on to a state that is
nearer to that. -/
theorem scanStep_lt (s : Printf) (hstate : s.state ≠ .done) :
    8 * s.scanStep.format.length + rank s.scanStep.state <
      8 * s.format.length + rank s.state := by
  have hle : ∀ state, rank state ≤ 7 := by
    intro state
    cases state <;> simp [rank]
  have hpos : 0 < rank s.state := by
    cases h : s.state
    case done => exact absurd h hstate
    all_goals simp [rank]
  rw [scanStep]
  by_cases hch : s.format.headD 0 = 0
  · simp only [if_pos hch]
    exact Nat.add_lt_add_left hpos _
  · have htail : s.format.tail.length + 1 = s.format.length := by
      cases h : s.format with
      | nil => exact absurd (by rw [h]; rfl) hch
      | cons ch format => rfl
    have hnext : ∀ s' : Printf, s'.format = s.format →
        8 * s'.next.format.length + rank s'.next.state <
          8 * s.format.length + rank s.state := by
      intro s' hformat
      have hshort : s'.next.format = s.format.tail :=
        congrArg List.tail hformat
      have hrank := hle s'.next.state
      rw [hshort]
      omega
    simp only [if_neg hch]
    split
    case h_7 => exact hnext _ (convert_format _ _)
    case h_8 hdone => exact absurd hdone hstate
    all_goals
      next hs =>
        repeat' split
        all_goals first
          | exact hnext _ rfl
          | simp only [rank, hs]; omega

/-- The loop of `debug_printf`. -/
def scan (s : Printf) : Printf :=
  if s.state = .done then s else s.scanStep.scan
termination_by 8 * s.format.length + rank s.state
decreasing_by
  exact scanStep_lt s (by assumption)

/-- The local variables in front of the loop.  The stack holds a return
address, the address of the format and the arguments. -/
def init (m : Machine) : Printf :=
  let fp : ℤ := (m.reg16 7).toNat + 2
  let (addr, machine) := m.getWord (BitVec.ofInt 16 fp)
  { machine := machine
    state := .default
    format := memoryText machine.memory (0x10000 - addr.toNat) addr.toNat
    fp := fp + 2
    min := 0
    max := -1
    flags := 0
    cflags := .none
    out := ⟨[], 0⟩
    reads := [] }

end Printf

/-- `debug_printf`, with the local variables it ends with. -/
def debugPrintf (m : Machine) : Printf :=
  (Printf.init m).scan

end BrickEmu
