import BrickEmu.HostInteger

/-!
# The lines for the display

The lines that `lcd.c` writes to the GUI and the reader in `emu_server.py`.
The reader takes the position from the second character of a line and the
byte from the fourth and fifth, which fits one-digit positions only.
-/

namespace BrickEmu

section Writer

/-- `%d` and `%02x`. -/
def formatDecimal (n : ℕ) : List Char :=
  Nat.toDigits 10 n

def formatHex (data : Byte) : List Char :=
  [Nat.digitChar (data.toNat / 16), Nat.digitChar (data.toNat % 16)]

/-- What `lcd_display`, `lcd_enable` and `lcd_load` report. -/
inductive LcdMessage where
  | display (ptr : Fin 12) (data : Byte)
  | enable (on : Bool)
  deriving DecidableEq

/-- A message without its newline. -/
def LcdMessage.line : LcdMessage → List Char
  | .display ptr data =>
      'L' :: formatDecimal ptr ++ ',' :: formatHex data
  | .enable on =>
      'L' :: formatDecimal 99 ++ ',' :: formatDecimal on.toNat

def LcdMessage.write (messages : List LcdMessage) : List Char :=
  messages.flatMap fun message => message.line ++ ['\n']

end Writer

section Python

inductive PyError where
  | valueError
  | indexError
  | keyError
  deriving DecidableEq

def digitValue (base : ℕ) (c : Char) : Option ℕ :=
  let value :=
    if c.isDigit then some (c.toNat - '0'.toNat)
    else if c.isLower then some (c.toNat - 'a'.toNat + 10)
    else if c.isUpper then some (c.toNat - 'A'.toNat + 10)
    else none
  value.filter (· < base)

/-- The digits behind the first; a single underscore may stand between two of
them. -/
def pyDigits (base acc : ℕ) : List Char → Option ℕ
  | [] => some acc
  | '_' :: c :: rest => do
      let digit ← digitValue base c
      pyDigits base (acc * base + digit) rest
  | c :: rest => do
      let digit ← digitValue base c
      pyDigits base (acc * base + digit) rest

/-- A base of 16 allows for `0x`. -/
def dropPrefix (base : ℕ) : List Char → List Char
  | '0' :: x :: rest =>
      if base = 16 ∧ (x = 'x' ∨ x = 'X') then
        if rest.head? = some '_' then rest.tail else rest
      else '0' :: x :: rest
  | text => text

def pyUnsigned (base : ℕ) (text : List Char) : Option ℕ :=
  match dropPrefix base text with
  | [] => none
  | c :: rest => do
      let digit ← digitValue base c
      pyDigits base digit rest

def strip (text : List Char) : List Char :=
  ((text.dropWhile Char.isWhitespace).reverse.dropWhile
    Char.isWhitespace).reverse

/-- `int(text, base)`. -/
def pyInt (base : ℕ) (text : List Char) : Except PyError ℤ :=
  let value : Option ℤ :=
    match strip text with
    | '-' :: rest => (pyUnsigned base rest).map fun n => -(n : ℤ)
    | '+' :: rest => (pyUnsigned base rest).map Int.ofNat
    | text => (pyUnsigned base text).map Int.ofNat
  match value with
  | some value => .ok value
  | none => .error .valueError

/-- `text[i]` and `text[i:j]`. -/
def pyIndex (text : List Char) (i : ℕ) : Except PyError (List Char) :=
  match text[i]? with
  | some c => .ok [c]
  | none => .error .indexError

def pySlice (text : List Char) (i j : ℕ) : List Char :=
  (text.take j).drop i

end Python

section Reader

/-- The state of `EmuServer` that the lines change. -/
structure EmuServer where
  lcdState : ℤ → Bool
  motorState : Fin 3 → ℤ × ℤ
  outQueue : List (List Char)

namespace EmuServer

/-- The eight segments at a position. -/
def setSegments (start value : ℤ) (server : EmuServer) : EmuServer :=
  { server with
    lcdState := fun segment =>
      if start ≤ segment ∧ segment < start + 8 then
        value / 2 ^ (segment - start).toNat % 2 = 1
      else server.lcdState segment }

def parseLcd (inData : List Char) : Except PyError (ℤ × ℤ) := do
  let position ← pyInt 10 (← pyIndex inData 1)
  let value ← pyInt 16 (pySlice inData 3 5)
  return (8 * position, value)

def setMotorState (motor direction speed : ℤ) (server : EmuServer) :
    Except PyError EmuServer :=
  if h : 0 ≤ motor ∧ motor < 3 then
    .ok { server with
      motorState := Function.update server.motorState
        ⟨motor.toNat, by omega⟩ (direction, speed) }
  else .error .keyError

/-- The branches of `_run` for a line. -/
def receiveLcd (inData : List Char) (server : EmuServer) :
    Except PyError EmuServer :=
  if 'L' ∈ inData then do
    let (start, value) ← parseLcd inData
    return server.setSegments start value
  else .ok server

def receiveMotor (inData : List Char) (server : EmuServer) :
    Except PyError EmuServer :=
  if 'M' ∈ inData then do
    let motor ← pyInt 10 (← pyIndex inData 1)
    let direction ← pyInt 10 (← pyIndex inData 3)
    let speed ← pyInt 10 (inData.drop 5)
    server.setMotorState motor direction speed
  else .ok server

def receive (inData : List Char) (server : EmuServer) :
    Except PyError EmuServer :=
  if inData = [] then .ok server
  else do
    let server ← server.receiveLcd inData
    let server ← server.receiveMotor inData
    return { server with outQueue := server.outQueue ++ [inData] }

/-- `_run` on the characters that arrive; `_socket_recv` has collected
`data`. -/
def run (data : List Char) : List Char → EmuServer → Except PyError EmuServer
  | [], server => .ok server
  | c :: rest, server =>
      if c = '\n' then do
        let server ← server.receive data
        run [] rest server
      else run (data ++ [c]) rest server

end EmuServer

end Reader

namespace LcdMessage

/-- The position fits into the second character. -/
def Short : LcdMessage → Prop
  | .display ptr _ => ptr.val < 10
  | .enable _ => False

instance : DecidablePred Short
  | .display ptr _ => inferInstanceAs (Decidable (ptr.val < 10))
  | .enable _ => inferInstanceAs (Decidable False)

/-- The bytes written to a position. -/
def writtenTo (ptr : Fin 12) (messages : List LcdMessage) : List Byte :=
  messages.filterMap fun
    | .display other data => if other = ptr then some data else none
    | .enable _ => none

/-- The reader has taken over the last byte of each position and nothing
else. -/
def Shown (messages : List LcdMessage) (before after : EmuServer) : Prop :=
  ∀ (ptr : Fin 12) (i : ℕ), i < 8 →
    after.lcdState (8 * ptr.val + i) =
      match (writtenTo ptr messages).getLast? with
      | some data => data.getLsbD i
      | none => before.lcdState (8 * ptr.val + i)

section Lines

theorem pyInt_formatHex (data : Byte) :
    pyInt 16 (formatHex data) = .ok (data.toNat : ℤ) := by
  revert data
  decide +kernel

theorem pyInt_comma (c : Char) (hc : c.isWhitespace = false) :
    pyInt 16 [',', c] = .error .valueError := by
  have hstrip : strip [',', c] = [',', c] := by
    simp [strip, List.dropWhile, hc]
  rw [pyInt, hstrip]
  rfl

theorem formatHex_letters (data : Byte) :
    ∀ c ∈ formatHex data, c ≠ 'M' ∧ c ≠ '\n' ∧ c.isWhitespace = false := by
  have hall : ∀ data : Byte, (formatHex data).all (fun c =>
      decide (c ≠ 'M' ∧ c ≠ '\n' ∧ c.isWhitespace = false)) = true := by
    decide +kernel
  simpa only [List.all_eq_true, decide_eq_true_eq] using hall data

theorem formatDecimal_short (ptr : Fin 12) (hshort : ptr.val < 10) :
    formatDecimal ptr.val = [Nat.digitChar ptr.val] ∧
      pyInt 10 [Nat.digitChar ptr.val] = .ok (ptr.val : ℤ) := by
  revert ptr
  decide +kernel

theorem formatDecimal_long (ptr : Fin 12) (hlong : ¬ptr.val < 10) :
    formatDecimal ptr.val = ['1', Nat.digitChar (ptr.val % 10)] := by
  revert ptr
  decide +kernel

theorem formatDecimal_letters (ptr : Fin 12) :
    ∀ c ∈ formatDecimal ptr.val, c ≠ 'M' ∧ c ≠ '\n' := by
  have hall : ∀ ptr : Fin 12, (formatDecimal ptr.val).all (fun c =>
      decide (c ≠ 'M' ∧ c ≠ '\n')) = true := by
    decide +kernel
  simpa only [List.all_eq_true, decide_eq_true_eq] using hall ptr

theorem parseLcd_short {ptr : Fin 12} (hshort : ptr.val < 10) (data : Byte) :
    EmuServer.parseLcd (display ptr data).line =
      .ok (8 * (ptr.val : ℤ), (data.toNat : ℤ)) := by
  obtain ⟨hformat, hint⟩ := formatDecimal_short ptr hshort
  have hindex : pyIndex (display ptr data).line 1 =
      .ok [Nat.digitChar ptr.val] := by
    rw [line, hformat]
    rfl
  have hslice : pySlice (display ptr data).line 3 5 = formatHex data := by
    rw [line, hformat]
    rfl
  simp only [EmuServer.parseLcd, hindex, hslice, pyInt_formatHex, bind,
    Except.bind, hint]
  rfl

/-- With a second digit the fourth character is the comma. -/
theorem parseLcd_long {message : LcdMessage} (hlong : ¬message.Short) :
    EmuServer.parseLcd message.line = .error .valueError := by
  cases message with
  | enable on =>
      revert on
      decide +kernel
  | display ptr data =>
      have hformat := formatDecimal_long ptr hlong
      have hindex : pyIndex (display ptr data).line 1 = .ok ['1'] := by
        rw [line, hformat]
        rfl
      have hslice : pySlice (display ptr data).line 3 5 =
          [',', Nat.digitChar (data.toNat / 16)] := by
        rw [line, hformat]
        rfl
      have hspace := (formatHex_letters data _ List.mem_cons_self).2.2
      have hone : pyInt 10 ['1'] = .ok 1 := by decide +kernel
      simp only [EmuServer.parseLcd, hindex, hslice, bind, Except.bind, hone,
        pyInt_comma _ hspace]

theorem line_letters (message : LcdMessage) :
    ∀ c ∈ message.line, c ≠ 'M' ∧ c ≠ '\n' := by
  cases message with
  | enable on =>
      have hall : ∀ on : Bool, (line (enable on)).all (fun c =>
          decide (c ≠ 'M' ∧ c ≠ '\n')) = true := by
        decide +kernel
      simpa only [List.all_eq_true, decide_eq_true_eq] using hall on
  | display ptr data =>
      intro c hc
      rw [line, List.cons_append, List.mem_cons, List.mem_append,
        List.mem_cons] at hc
      rcases hc with rfl | hdigit | rfl | hhex
      · decide
      · exact formatDecimal_letters ptr c hdigit
      · decide
      · obtain ⟨hm, hnewline, -⟩ := formatHex_letters data c hhex
        exact ⟨hm, hnewline⟩

end Lines

section Stream

/-- The server after a line for a position. -/
def shown (message : LcdMessage) (start value : ℤ) (server : EmuServer) :
    EmuServer :=
  { server.setSegments start value with
    outQueue := server.outQueue ++ [message.line] }

theorem receive_line (message : LcdMessage) (server : EmuServer) :
    server.receive message.line =
      (EmuServer.parseLcd message.line).map fun (start, value) =>
        message.shown start value server := by
  have hcons : message.line ≠ [] := by cases message <;> exact List.cons_ne_nil _ _
  have hlcd : 'L' ∈ message.line := by
    cases message <;> exact List.mem_cons_self
  have hmotor : 'M' ∉ message.line := fun h => (line_letters message _ h).1 rfl
  rw [EmuServer.receive, if_neg hcons, EmuServer.receiveLcd, if_pos hlcd]
  cases EmuServer.parseLcd message.line with
  | error e => rfl
  | ok parsed =>
      simp only [bind, Except.bind, pure, Except.pure, EmuServer.receiveMotor,
        if_neg hmotor]
      rfl

theorem run_append (data line rest : List Char) (server : EmuServer)
    (hline : ∀ c ∈ line, c ≠ '\n') :
    EmuServer.run data (line ++ '\n' :: rest) server =
      (server.receive (data ++ line)).bind (EmuServer.run [] rest) := by
  induction line generalizing data with
  | nil =>
      rw [List.append_nil]
      rfl
  | cons c line ih =>
      obtain ⟨hc, hline⟩ := List.forall_mem_cons.mp hline
      rw [List.cons_append, EmuServer.run, if_neg hc, ih (data ++ [c]) hline,
        List.append_assoc]
      rfl

theorem run_write_cons (message : LcdMessage) (messages : List LcdMessage)
    (server : EmuServer) :
    EmuServer.run [] (write (message :: messages)) server =
      (server.receive message.line).bind
        (EmuServer.run [] (write messages)) := by
  have hstream : write (message :: messages) =
      message.line ++ '\n' :: write messages := by
    simp [write]
  rw [hstream, run_append]
  · rfl
  · exact fun c hc => (line_letters message c hc).2

end Stream

section Agreement

variable {server after : EmuServer}

theorem bit_of_div (data : Byte) (i : ℕ) :
    decide ((data.toNat : ℤ) / 2 ^ i % 2 = 1) = data.getLsbD i := by
  rw [BitVec.getLsbD, Nat.testBit_eq_decide_div_mod_eq, decide_eq_decide]
  exact_mod_cast Iff.rfl

theorem shown_lcdState (ptr other : Fin 12) (data : Byte) {i : ℕ}
    (hi : i < 8) :
    ((display ptr data).shown (8 * (ptr.val : ℤ)) data.toNat
        server).lcdState (8 * other.val + i) =
      if ptr = other then data.getLsbD i
      else server.lcdState (8 * other.val + i) := by
  simp only [shown, EmuServer.setSegments]
  by_cases hptr : ptr = other
  · subst hptr
    rw [if_pos rfl, if_pos (by omega), ← bit_of_div]
    have hoffset : (8 * (ptr.val : ℤ) + i - 8 * ptr.val).toNat = i := by omega
    rw [hoffset]
  · have hval : ptr.val ≠ other.val := fun h => hptr (Fin.ext h)
    rw [if_neg hptr, if_neg (by omega)]

/-- One more line in front. -/
theorem Shown.cons {ptr : Fin 12} {data : Byte} {messages : List LcdMessage}
    (hrest : Shown messages
      ((display ptr data).shown (8 * (ptr.val : ℤ)) data.toNat server) after) :
    Shown (display ptr data :: messages) server after := by
  intro other i hi
  have hstate := hrest other i hi
  rw [shown_lcdState ptr other data hi] at hstate
  by_cases hptr : ptr = other
  · have hwritten : writtenTo other (display ptr data :: messages) =
        data :: writtenTo other messages := by simp [writtenTo, hptr]
    rw [hwritten, List.getLast?_cons, hstate, if_pos hptr]
    cases (writtenTo other messages).getLast? <;> rfl
  · have hwritten : writtenTo other (display ptr data :: messages) =
        writtenTo other messages := by simp [writtenTo, hptr]
    rw [hwritten, hstate, if_neg hptr]

/-- All lines are read without an exception, and the segments show what was
written last. -/
def Agrees (messages : List LcdMessage) (server : EmuServer) : Prop :=
  ∃ after, EmuServer.run [] (write messages) server = .ok after ∧
    Shown messages server after

theorem agrees_of_short {messages : List LcdMessage}
    (hshort : ∀ message ∈ messages, message.Short) :
    Agrees messages server := by
  induction messages generalizing server with
  | nil => exact ⟨server, rfl, fun _ _ _ => rfl⟩
  | cons message messages ih =>
      obtain ⟨hfirst, hrest⟩ := List.forall_mem_cons.mp hshort
      cases message with
      | enable on => exact absurd hfirst not_false
      | display ptr data =>
          obtain ⟨after, hrun, hshown⟩ := @ih
            ((display ptr data).shown (8 * (ptr.val : ℤ)) data.toNat server)
            hrest
          refine ⟨after, ?_, hshown.cons⟩
          rw [run_write_cons, receive_line, parseLcd_short hfirst]
          exact hrun

theorem short_of_run {messages : List LcdMessage}
    (hrun : EmuServer.run [] (write messages) server = .ok after) :
    ∀ message ∈ messages, message.Short := by
  induction messages generalizing server with
  | nil => exact fun _ h => absurd h List.not_mem_nil
  | cons message messages ih =>
      rw [run_write_cons, receive_line] at hrun
      by_cases hshort : message.Short
      · cases hparse : EmuServer.parseLcd message.line with
        | error e =>
            rw [hparse] at hrun
            cases hrun
        | ok parsed =>
            rw [hparse] at hrun
            exact List.forall_mem_cons.mpr ⟨hshort, ih hrun⟩
      · rw [parseLcd_long hshort] at hrun
        cases hrun

/-- The reader follows the writer exactly as long as every line is for one of
the first ten positions. -/
theorem agrees_iff (messages : List LcdMessage) (server : EmuServer) :
    Agrees messages server ↔ ∀ message ∈ messages, message.Short := by
  constructor
  · rintro ⟨after, hrun, -⟩
    exact short_of_run hrun
  · exact agrees_of_short

/-- Switching the display on ends the reader with an exception. -/
theorem enable_not_read :
    ¬Agrees [enable true] ⟨fun _ => false, fun _ => (0, 0), []⟩ := by
  rintro ⟨after, hrun, -⟩
  rw [run_write_cons, receive_line] at hrun
  cases hrun

end Agreement

end LcdMessage

end BrickEmu
