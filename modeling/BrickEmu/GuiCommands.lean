import Mathlib.Data.List.Basic
import Mathlib.Tactic

/-!
# The commands of the GUI

`synchronize_time` reads one character from the GUI and calls the `read_fd` of
the peripheral with that id, which takes the rest of its command from the same
stream.  There is no framing: a command is in order when its own pass reads it
and nothing of the next one.
-/

namespace BrickEmu

namespace Gui

def MAX_PATHNAME_LEN : ℕ := 4096

/-- The size of the buffer in `newprogram_addr`. -/
def ADDR_BUFFER : ℕ := 20

/-- The commands with the arguments that `read_fd` hands on. -/
inductive Command where
  | sensor (channel val₁ val₂ val₃ : Char)
  | button (name val : Char)
  | reset
  | monitorPort
  | firmware (file : List Char)
  | dumpMemory
  | dumpPrograms
  | dumpThreads
  | dumpTimers
  | checkOs
  | hostAddr (addr : Char)
  | newProgramAddr (slot : Char) (size : List Char)
  | loadProgram (slot : Char) (file : List Char)
  | save (file : List Char)
  | load (file : List Char)
  deriving DecidableEq

section Reading

def isTerminator (c : Char) : Bool :=
  c = '\n' ∨ c = '\r'

/-- The loops that read a file name up to the first terminator, which they
drop.  Without one they wait. -/
def readLine : List Char → Option (List Char × List Char)
  | [] => none
  | c :: rest =>
      if isTerminator c then some ([], rest)
      else (readLine rest).map fun (line, rest) => (c :: line, rest)

/-- The loop of `newprogram_addr`, which stops when the buffer is full.  The
last character read makes room for the end of the string. -/
def readBuffer (size : ℕ) : List Char → Option (List Char × List Char)
  | [] => none
  | c :: rest =>
      if isTerminator c ∨ size ≤ 1 then some ([], rest)
      else (readBuffer (size - 1) rest).map fun (line, rest) => (c :: line, rest)

/-- A handler that waits for the rest of its command has read everything. -/
def whenRead (line : Option (List Char × List Char))
    (commands : List Char → List Command) : List Command × List Char :=
  match line with
  | some (line, rest) => (commands line, rest)
  | none => ([], [])

end Reading

section Handlers

def adReadFd : List Char → List Command × List Char
  | channel :: val₁ :: val₂ :: val₃ :: _ :: rest =>
      ([.sensor channel val₁ val₂ val₃], rest)
  | _ => ([], [])

def btnReadFd : List Char → List Command × List Char
  | name :: val :: _ :: rest => ([.button name val], rest)
  | _ => ([], [])

def periphReadFd : List Char → List Command × List Char
  | [] => ([], [])
  | 'R' :: rest => ([.reset], rest)
  | 'D' :: rest => ([.monitorPort], rest)
  | _ :: rest => ([], rest)

def firmReadFd (bytes : List Char) : List Command × List Char :=
  whenRead (readLine bytes) fun file => [.firmware file]

/-- The case for loading falls through to the one for saving. -/
def savefileReadFd : List Char → List Command × List Char
  | [] => ([], [])
  | id :: rest =>
      whenRead (readLine rest) fun file =>
        match id with
        | 'L' | 'l' => [.load file, .save file]
        | 'S' | 's' => [.save file]
        | _ => []

def newProgramAddr (bytes : List Char) : List Command × List Char :=
  whenRead (readBuffer ADDR_BUFFER bytes) fun buf =>
    [.newProgramAddr (buf.headD '\x00') buf.tail]

def setHostAddr : List Char → List Command × List Char
  | [] => ([], [])
  | addr :: rest => ([.hostAddr addr], rest)

def loadProgram : List Char → List Command × List Char
  | [] => ([], [])
  | slot :: rest =>
      whenRead (readLine rest) fun file => [.loadProgram slot file]

/-- The switches of `brickos_read_fd` and `bibo_read_fd`; only the second has
a case for the timers. -/
def systemReadFd (hasTimers : Bool) :
    List Char → List Command × List Char
  | [] => ([], [])
  | id :: rest =>
      match id with
      | 'M' | 'm' => ([.dumpMemory], rest)
      | 'P' | 'p' => ([.dumpPrograms], rest)
      | 'O' | 'o' => ([.checkOs], rest)
      | 'A' | 'a' => newProgramAddr rest
      | 'N' | 'n' => setHostAddr rest
      | 'T' | 't' => ([.dumpThreads], rest)
      | 'C' | 'c' => (if hasTimers then [.dumpTimers] else [], rest)
      | 'L' | 'l' => loadProgram rest
      | _ => ([], rest)

def brickosReadFd : List Char → List Command × List Char :=
  systemReadFd false

/-- `bibo_read_fd` goes on behind the call of `brickos_read_fd`. -/
def biboReadFd (tdIdle : Bool) (bytes : List Char) :
    List Command × List Char :=
  if tdIdle then systemReadFd true bytes
  else
    let (chained, rest) := brickosReadFd bytes
    let (commands, rest) := systemReadFd true rest
    (chained ++ commands, rest)

/-- The peripherals by their id.  Some have no `read_fd`, and the call goes
through a null pointer. -/
def readFd (tdIdle : Bool) (id : Char) (bytes : List Char) :
    Option (List Command × List Char) :=
  match id with
  | 'A' => some (adReadFd bytes)
  | 'B' => some (btnReadFd bytes)
  | 'C' => some (savefileReadFd bytes)
  | 'F' => some (firmReadFd bytes)
  | 'O' => some (biboReadFd tdIdle bytes)
  | 'P' => some (periphReadFd bytes)
  | 'L' | 'M' | 'S' | 'T' | '8' | 'W' => none
  | _ => some ([], bytes)

end Handlers

/-- What one pass of `synchronize_time` has read and carried out. -/
structure Pass where
  bytes : List Char
  commands : List Command
  deriving DecidableEq

/-- The passes until the stream is read or the emulator has crashed.  The
symbols may change on the way: `tdIdle` tells whether `_td_idle` is known
when the given number of characters is left. -/
def passes (tdIdle : ℕ → Bool) : ℕ → List Char → List Pass
  | 0, _ => []
  | _ + 1, [] => []
  | fuel + 1, id :: bytes =>
      match readFd (tdIdle bytes.length) id bytes with
      | none => [⟨[id], []⟩]
      | some (commands, rest) =>
          ⟨(id :: bytes).take (bytes.length + 1 - rest.length), commands⟩ ::
            passes tdIdle fuel rest

def dispatch (tdIdle : ℕ → Bool) (bytes : List Char) : List Pass :=
  passes tdIdle bytes.length bytes

section Protocol

def isHex (c : Char) : Bool :=
  c ∈ "0123456789abcdefABCDEF".toList

def IsFile (file : List Char) : Prop :=
  file.length ≤ MAX_PATHNAME_LEN ∧
    ∀ c ∈ file, isTerminator c = false ∧ c ≠ '\x00'

/-- What the GUI may send. -/
def Command.WellFormed : Command → Prop
  | .sensor channel val₁ val₂ val₃ =>
      channel.isDigit ∧ isHex val₁ ∧ isHex val₂ ∧ isHex val₃
  | .button name val =>
      name ∈ "OPRVoprv".toList ∧ (val = '0' ∨ val = '1')
  | .hostAddr addr => addr = '?'
  | .newProgramAddr slot size =>
      slot.isDigit ∧ size ≠ [] ∧ ∀ c ∈ size, c.isDigit
  | .loadProgram slot file => slot.isDigit ∧ IsFile file
  | .firmware file | .save file | .load file => IsFile file
  | _ => True

def Command.text : Command → List Char
  | .sensor channel val₁ val₂ val₃ => ['A', channel, val₁, val₂, val₃]
  | .button name val => ['B', name, val]
  | .reset => ['P', 'R']
  | .monitorPort => ['P', 'D']
  | .firmware file => 'F' :: file
  | .dumpMemory => ['O', 'M']
  | .dumpPrograms => ['O', 'P']
  | .dumpThreads => ['O', 'T']
  | .dumpTimers => ['O', 'C']
  | .checkOs => ['O', 'O']
  | .hostAddr addr => ['O', 'N', addr]
  | .newProgramAddr slot size => 'O' :: 'A' :: slot :: size
  | .loadProgram slot file => 'O' :: 'L' :: slot :: file
  | .save file => 'C' :: 'S' :: file
  | .load file => 'C' :: 'L' :: file

/-- A command and whether its line ends with a carriage return. -/
structure Line where
  command : Command
  carriage : Bool

def Line.ending (line : Line) : List Char :=
  if line.carriage then ['\r', '\n'] else ['\n']

def Line.text (line : Line) : List Char :=
  line.command.text ++ line.ending

def stream (lines : List Line) : List Char :=
  lines.flatMap Line.text

/-- These passes read the line, no more and no less, and carry out its
command. -/
def Carries (log : List Pass) (line : Line) : Prop :=
  log.flatMap Pass.bytes = line.text ∧
    log.flatMap Pass.commands = [line.command]

/-- The passes carry out one line after the other. -/
def Framed : List Pass → List Line → Prop
  | log, [] => log = []
  | log, line :: lines =>
      ∃ first rest, log = first ++ rest ∧ Carries first line ∧
        Framed rest lines

/-- A command of the operating system finds its handler, and what the
handlers read together ends with the line. -/
def Line.Contained (tdIdle : Bool) (line : Line) (lines : List Line) : Prop :=
  match line.command with
  | .load _ => False
  | .dumpTimers => tdIdle = true
  | .newProgramAddr _ size =>
      size.length + 2 ≤ ADDR_BUFFER ∧
        (tdIdle = true ∨ line.carriage = true ∨ lines = [])
  | .loadProgram _ _ => tdIdle = true ∨ line.carriage = true ∨ lines = []
  | _ => True

def Contained (tdIdle : ℕ → Bool) : List Line → Prop
  | [] => True
  | line :: lines =>
      line.Contained (tdIdle ((stream (line :: lines)).length - 1)) lines ∧
        Contained tdIdle lines

end Protocol

section Reading

theorem readLine_append {file : List Char} {t : Char} (s : List Char)
    (hfile : ∀ c ∈ file, isTerminator c = false)
    (ht : isTerminator t = true) :
    readLine (file ++ t :: s) = some (file, s) := by
  induction file with
  | nil => simp [readLine, ht]
  | cons c file ih =>
      have hc := hfile c (by simp)
      have hrest := ih fun c' hc' => hfile c' (by simp [hc'])
      simp [readLine, hc, hrest]

theorem readBuffer_append {text : List Char} {t : Char} {size : ℕ}
    (s : List Char) (htext : ∀ c ∈ text, isTerminator c = false)
    (ht : isTerminator t = true) (hsize : text.length < size) :
    readBuffer size (text ++ t :: s) = some (text, s) := by
  induction text generalizing size with
  | nil => simp [readBuffer, ht]
  | cons c text ih =>
      have hc := htext c (by simp)
      rw [List.length_cons] at hsize
      have hroom : ¬ size ≤ 1 := by omega
      have hrest := ih (fun c' hc' => htext c' (by simp [hc']))
        (show text.length < size - 1 by omega)
      simp [readBuffer, hc, hroom, hrest]

theorem readBuffer_full {text : List Char} {size : ℕ} (s : List Char)
    (htext : ∀ c ∈ text, isTerminator c = false)
    (hpos : 0 < size) (hsize : size ≤ text.length) :
    readBuffer size (text ++ s) =
      some (text.take (size - 1), text.drop size ++ s) := by
  induction text generalizing size with
  | nil =>
      rw [List.length_nil] at hsize
      omega
  | cons c text ih =>
      have hc := htext c (by simp)
      rw [List.length_cons] at hsize
      by_cases hlast : size ≤ 1
      · have hone : size = 1 := by omega
        simp [readBuffer, hone]
      · have hrest := ih (fun c' hc' => htext c' (by simp [hc']))
          (show 0 < size - 1 by omega) (by omega)
        obtain ⟨n, rfl⟩ : ∃ n, size = n + 2 := ⟨size - 2, by omega⟩
        simp only [Nat.add_one_sub_one] at hrest
        simp [readBuffer, hc, hrest]

theorem readLine_length {bytes line rest : List Char}
    (hread : readLine bytes = some (line, rest)) :
    rest.length ≤ bytes.length := by
  induction bytes generalizing line with
  | nil => cases hread
  | cons c bytes ih =>
      rw [List.length_cons]
      simp only [readLine] at hread
      split_ifs at hread
      · cases hread
        exact Nat.le_succ _
      · obtain ⟨⟨line', rest'⟩, htail, heq⟩ := Option.map_eq_some_iff.mp hread
        cases heq
        exact Nat.le_succ_of_le (ih htail)

theorem readBuffer_length {size : ℕ} {bytes line rest : List Char}
    (hread : readBuffer size bytes = some (line, rest)) :
    rest.length ≤ bytes.length := by
  induction bytes generalizing size line with
  | nil => cases hread
  | cons c bytes ih =>
      rw [List.length_cons]
      simp only [readBuffer] at hread
      split_ifs at hread
      · cases hread
        exact Nat.le_succ _
      · obtain ⟨⟨line', rest'⟩, htail, heq⟩ := Option.map_eq_some_iff.mp hread
        cases heq
        exact Nat.le_succ_of_le (ih htail)

theorem whenRead_length {line : Option (List Char × List Char)}
    {bytes : List Char} (commands : List Char → List Command)
    (hread : ∀ text rest, line = some (text, rest) →
      rest.length ≤ bytes.length) :
    (whenRead line commands).2.length ≤ bytes.length := by
  cases line with
  | none => exact Nat.zero_le _
  | some read => exact hread read.1 read.2 rfl

theorem newProgramAddr_length (bytes : List Char) :
    (newProgramAddr bytes).2.length ≤ bytes.length :=
  whenRead_length _ fun _ _ hread => readBuffer_length hread

theorem setHostAddr_length (bytes : List Char) :
    (setHostAddr bytes).2.length ≤ bytes.length := by
  cases bytes with
  | nil => exact le_rfl
  | cons addr rest => exact Nat.le_succ _

theorem loadProgram_length (bytes : List Char) :
    (loadProgram bytes).2.length ≤ bytes.length := by
  cases bytes with
  | nil => exact le_rfl
  | cons slot rest =>
      exact whenRead_length _ fun _ _ hread =>
        Nat.le_succ_of_le (readLine_length hread)

theorem systemReadFd_cons_length (hasTimers : Bool) (id : Char)
    (rest : List Char) :
    (systemReadFd hasTimers (id :: rest)).2.length ≤ rest.length := by
  simp only [systemReadFd]
  split
  all_goals first
    | exact le_rfl
    | exact newProgramAddr_length rest
    | exact setHostAddr_length rest
    | exact loadProgram_length rest

theorem systemReadFd_length (hasTimers : Bool) (bytes : List Char) :
    (systemReadFd hasTimers bytes).2.length ≤ bytes.length := by
  cases bytes with
  | nil => exact le_rfl
  | cons id rest =>
      exact Nat.le_succ_of_le (systemReadFd_cons_length hasTimers id rest)

theorem biboReadFd_length (tdIdle : Bool) (bytes : List Char) :
    (biboReadFd tdIdle bytes).2.length ≤ bytes.length := by
  cases tdIdle with
  | true => exact systemReadFd_length true bytes
  | false =>
      exact (systemReadFd_length true _).trans (systemReadFd_length false bytes)

theorem savefileReadFd_length (bytes : List Char) :
    (savefileReadFd bytes).2.length ≤ bytes.length := by
  cases bytes with
  | nil => exact le_rfl
  | cons id rest =>
      exact whenRead_length _ fun _ _ hread =>
        Nat.le_succ_of_le (readLine_length hread)

theorem adReadFd_length (bytes : List Char) :
    (adReadFd bytes).2.length ≤ bytes.length := by
  unfold adReadFd
  split
  · simp only [List.length_cons]
    omega
  · exact Nat.zero_le _

theorem btnReadFd_length (bytes : List Char) :
    (btnReadFd bytes).2.length ≤ bytes.length := by
  unfold btnReadFd
  split
  · simp only [List.length_cons]
    omega
  · exact Nat.zero_le _

theorem periphReadFd_length (bytes : List Char) :
    (periphReadFd bytes).2.length ≤ bytes.length := by
  unfold periphReadFd
  split
  · exact le_rfl
  all_goals exact Nat.le_succ _

theorem readFd_length {tdIdle : Bool} {id : Char} {bytes rest : List Char}
    {commands : List Command}
    (hread : readFd tdIdle id bytes = some (commands, rest)) :
    rest.length ≤ bytes.length := by
  have hrest : ∀ read : List Command × List Char,
      some read = some (commands, rest) → read.2.length ≤ bytes.length →
        rest.length ≤ bytes.length := by
    rintro read heq hle
    cases heq
    exact hle
  unfold readFd at hread
  split at hread
  · exact hrest _ hread (adReadFd_length bytes)
  · exact hrest _ hread (btnReadFd_length bytes)
  · exact hrest _ hread (savefileReadFd_length bytes)
  · exact hrest _ hread
      (whenRead_length _ fun _ _ hline => readLine_length hline)
  · exact hrest _ hread (biboReadFd_length tdIdle bytes)
  · exact hrest _ hread (periphReadFd_length bytes)
  all_goals first
    | cases hread
      done
    | exact hrest _ hread le_rfl

end Reading

section Passes

variable {tdIdle : ℕ → Bool}

/-- The number of passes is no matter once it covers the stream. -/
theorem passes_eq_dispatch {fuel : ℕ} {bytes : List Char}
    (hfuel : bytes.length ≤ fuel) :
    passes tdIdle fuel bytes = dispatch tdIdle bytes := by
  have hsame : ∀ n fuel fuel' : ℕ, ∀ bytes : List Char, bytes.length ≤ n →
      bytes.length ≤ fuel → bytes.length ≤ fuel' →
        passes tdIdle fuel bytes = passes tdIdle fuel' bytes := by
    intro n
    induction n with
    | zero =>
        intro fuel fuel' bytes hn _ _
        obtain rfl := List.eq_nil_of_length_eq_zero (Nat.le_zero.mp hn)
        cases fuel <;> cases fuel' <;> rfl
    | succ n ih =>
        intro fuel fuel' bytes hn hfuel hfuel'
        cases bytes with
        | nil => cases fuel <;> cases fuel' <;> rfl
        | cons id bytes =>
            rw [List.length_cons] at hn hfuel hfuel'
            obtain ⟨fuel, rfl⟩ : ∃ k, fuel = k + 1 := ⟨fuel - 1, by omega⟩
            obtain ⟨fuel', rfl⟩ : ∃ k, fuel' = k + 1 := ⟨fuel' - 1, by omega⟩
            simp only [passes]
            cases hread : readFd (tdIdle bytes.length) id bytes with
            | none => rfl
            | some read =>
                obtain ⟨commands, rest⟩ := read
                have hle := readFd_length hread
                simp only
                rw [ih fuel fuel' rest (by omega) (by omega) (by omega)]
  exact hsame bytes.length fuel bytes.length bytes le_rfl hfuel le_rfl

theorem dispatch_cons {id : Char} {read rest : List Char}
    {commands : List Command}
    (hread : readFd (tdIdle (read ++ rest).length) id (read ++ rest) =
      some (commands, rest)) :
    dispatch tdIdle (id :: (read ++ rest)) =
      ⟨id :: read, commands⟩ :: dispatch tdIdle rest := by
  have hcount : (read ++ rest).length + 1 - rest.length = read.length + 1 := by
    rw [List.length_append]
    omega
  have htake : (id :: (read ++ rest)).take (read.length + 1) = id :: read := by
    simp
  have hstep : dispatch tdIdle (id :: (read ++ rest)) =
      ⟨(id :: (read ++ rest)).take ((read ++ rest).length + 1 - rest.length),
        commands⟩ :: passes tdIdle (read ++ rest).length rest := by
    rw [dispatch, List.length_cons, passes, hread]
  rw [hstep, hcount, htake, passes_eq_dispatch]
  rw [List.length_append]
  omega

theorem isTerminator_cases {t : Char} (ht : isTerminator t = true) :
    t = '\n' ∨ t = '\r' := by
  simpa [isTerminator] using ht

/-- A terminator calls no peripheral. -/
theorem dispatch_terminator {t : Char} (ht : isTerminator t = true)
    (bytes : List Char) :
    dispatch tdIdle (t :: bytes) = ⟨[t], []⟩ :: dispatch tdIdle bytes := by
  have hread : readFd (tdIdle ([] ++ bytes).length) t ([] ++ bytes) =
      some ([], bytes) := by
    rcases isTerminator_cases ht with rfl | rfl <;> rfl
  exact dispatch_cons hread

theorem dispatch_terminators {left : List Char}
    (hleft : ∀ t ∈ left, isTerminator t = true) (bytes : List Char) :
    ∃ log, dispatch tdIdle (left ++ bytes) = log ++ dispatch tdIdle bytes ∧
      log.flatMap Pass.bytes = left ∧ log.flatMap Pass.commands = [] := by
  induction left with
  | nil => exact ⟨[], rfl, rfl, rfl⟩
  | cons t left ih =>
      obtain ⟨log, hlog, hbytes, hcommands⟩ :=
        ih fun t' ht' => hleft t' (by simp [ht'])
      refine ⟨⟨[t], []⟩ :: log, ?_, ?_, ?_⟩
      · rw [List.cons_append, dispatch_terminator (hleft t (by simp)), hlog]
        rfl
      · simp [hbytes]
      · simpa using hcommands

theorem bytes_ne_nil_of_mem {fuel : ℕ} {bytes : List Char} {pass : Pass}
    (hpass : pass ∈ passes tdIdle fuel bytes) : pass.bytes ≠ [] := by
  induction fuel generalizing bytes with
  | zero => cases hpass
  | succ fuel ih =>
      cases bytes with
      | nil => cases hpass
      | cons id bytes =>
          simp only [passes] at hpass
          cases hread : readFd (tdIdle bytes.length) id bytes with
          | none =>
              rw [hread, List.mem_singleton] at hpass
              simp [hpass]
          | some read =>
              obtain ⟨commands, rest⟩ := read
              have hle := readFd_length hread
              rw [hread] at hpass
              rcases List.mem_cons.mp hpass with rfl | hmem
              · simp only [ne_eq, List.take_eq_nil_iff, not_or]
                exact ⟨by omega, List.cons_ne_nil _ _⟩
              · exact ih hmem

end Passes

section Framing

variable {tdIdle : ℕ → Bool} {line : Line} {lines : List Line}

theorem text_ne_nil (line : Line) : line.text ≠ [] := by
  obtain ⟨command, carriage⟩ := line
  cases command <;> simp [Line.text, Command.text]

/-- The bytes tell where the passes of a line end. -/
theorem segment_unique {first first' rest rest' : List Pass}
    (happend : first ++ rest = first' ++ rest')
    (hbytes : first.flatMap Pass.bytes = first'.flatMap Pass.bytes)
    (hne : ∀ pass ∈ first ++ rest, pass.bytes ≠ []) :
    first = first' ∧ rest = rest' := by
  have hnil : ∀ log : List Pass, (∀ pass ∈ log, pass.bytes ≠ []) →
      log.flatMap Pass.bytes = [] → log = [] := by
    intro log hlog hempty
    rw [List.flatMap_eq_nil_iff] at hempty
    apply List.eq_nil_iff_forall_not_mem.mpr
    intro pass hpass
    exact hlog pass hpass (hempty pass hpass)
  rcases List.append_eq_append_iff.mp happend with
    ⟨log, rfl, rfl⟩ | ⟨log, rfl, rfl⟩
  · have hlog : log = [] := by
      apply hnil log
      · intro pass hpass
        exact hne pass (by simp [hpass])
      · simpa using hbytes
    simp [hlog]
  · have hlog : log = [] := by
      apply hnil log
      · intro pass hpass
        exact hne pass (by simp [hpass])
      · simpa using hbytes
    simp [hlog]

/-- Whether BiBo is loaded when the line is read. -/
def idleAt (tdIdle : ℕ → Bool) (line : Line) (lines : List Line) : Bool :=
  tdIdle ((stream (line :: lines)).length - 1)

theorem idleAt_eq (tdIdle : ℕ → Bool) (lines : List Line) {id : Char}
    {body : List Char} (htext : line.text = id :: body) :
    tdIdle (body ++ stream lines).length = idleAt tdIdle line lines := by
  have hstream : stream (line :: lines) = id :: (body ++ stream lines) := by
    simp [stream, htext]
  rw [idleAt, hstream, List.length_cons, Nat.add_sub_cancel]

/-- One pass reads the command, and leaves at most terminators of its line. -/
structure Reads (tdIdle : Bool) (line : Line) (lines : List Line)
    (commands : List Command) (id : Char) (read left : List Char) : Prop where
  text : line.text = id :: (read ++ left)
  terminators : ∀ t ∈ left, isTerminator t = true
  result : readFd tdIdle id (read ++ (left ++ stream lines)) =
    some (commands, left ++ stream lines)

theorem framed_cons_iff {id : Char} {read left : List Char}
    {commands : List Command}
    (h : Reads (idleAt tdIdle line lines) line lines commands id read left) :
    Framed (dispatch tdIdle (stream (line :: lines))) (line :: lines) ↔
      commands = [line.command] ∧
        Framed (dispatch tdIdle (stream lines)) lines := by
  obtain ⟨log, hlog, hbytes, hcommands⟩ :=
    @dispatch_terminators tdIdle left h.terminators (stream lines)
  have hread : readFd (tdIdle (read ++ (left ++ stream lines)).length) id
      (read ++ (left ++ stream lines)) =
        some (commands, left ++ stream lines) := by
    rw [← List.append_assoc, idleAt_eq tdIdle lines h.text, List.append_assoc]
    exact h.result
  have hstream : stream (line :: lines) =
      id :: (read ++ (left ++ stream lines)) := by
    simp [stream, h.text]
  have hdispatch : dispatch tdIdle (stream (line :: lines)) =
      (⟨id :: read, commands⟩ :: log) ++ dispatch tdIdle (stream lines) := by
    rw [hstream, dispatch_cons hread, hlog]
    rfl
  have hline : (⟨id :: read, commands⟩ :: log : List Pass).flatMap Pass.bytes =
      line.text := by
    simp [h.text, hbytes]
  have hdone : (⟨id :: read, commands⟩ :: log : List Pass).flatMap
      Pass.commands = commands := by
    simp [hcommands]
  constructor
  · rintro ⟨first, rest, happend, ⟨hfirst, hfirst'⟩, hrest⟩
    rw [hdispatch] at happend
    have hne : ∀ pass ∈ (⟨id :: read, commands⟩ :: log) ++
        dispatch tdIdle (stream lines), pass.bytes ≠ [] := by
      intro pass hpass
      rw [← hdispatch] at hpass
      exact bytes_ne_nil_of_mem hpass
    obtain ⟨rfl, rfl⟩ := segment_unique happend (hline.trans hfirst.symm) hne
    exact ⟨hdone.symm.trans hfirst', hrest⟩
  · rintro ⟨rfl, hrest⟩
    exact ⟨_, _, hdispatch, ⟨hline, hdone⟩, hrest⟩

/-- The first pass of a framed line. -/
theorem Framed.first {pass : Pass} {log : List Pass}
    (h : Framed (pass :: log) (line :: lines)) :
    pass.bytes.length ≤ line.text.length ∧
      ∀ command ∈ pass.commands.head?, command = line.command := by
  obtain ⟨first, rest, happend, ⟨hbytes, hcommands⟩, -⟩ := h
  cases first with
  | nil => exact absurd hbytes.symm (text_ne_nil line)
  | cons pass' first =>
      obtain ⟨rfl, -⟩ := List.cons.inj happend
      rw [List.flatMap_cons] at hbytes hcommands
      constructor
      · rw [← hbytes, List.length_append]
        exact Nat.le_add_right _ _
      · intro command hcommand
        cases hpass : pass.commands with
        | nil =>
            rw [hpass] at hcommand
            cases hcommand
        | cons head tail =>
            rw [hpass] at hcommand hcommands
            cases hcommand
            exact (List.cons.inj hcommands).1

/-- A pass that reads into the next line or hands on other arguments. -/
theorem not_framed {id : Char} {body rest : List Char}
    {commands : List Command} (htext : line.text = id :: body)
    (hread : readFd (idleAt tdIdle line lines) id (body ++ stream lines) =
      some (commands, rest))
    (hbad : rest.length < (stream lines).length ∨
      ∃ command ∈ commands.head?, command ≠ line.command) :
    ¬ Framed (dispatch tdIdle (stream (line :: lines))) (line :: lines) := by
  intro hframed
  have hstream : stream (line :: lines) = id :: (body ++ stream lines) := by
    simp [stream, htext]
  rw [hstream, dispatch, List.length_cons, passes,
    idleAt_eq tdIdle lines htext, hread] at hframed
  obtain ⟨hlength, hcommand⟩ := hframed.first
  rcases hbad with hshort | ⟨command, hmem, hne⟩
  · have hle := readFd_length hread
    simp only [List.length_take, List.length_cons, List.length_append, htext]
      at hlength hle
    omega
  · exact hne (hcommand command hmem)

end Framing

section Lines

variable {tdIdle : ℕ → Bool} {line : Line} {lines : List Line}

def Line.closing (line : Line) : Char :=
  if line.carriage then '\r' else '\n'

def Line.trailing (line : Line) : List Char :=
  if line.carriage then ['\n'] else []

theorem ending_eq (line : Line) :
    line.ending = line.closing :: line.trailing := by
  unfold Line.ending Line.closing Line.trailing
  split_ifs <;> rfl

theorem isTerminator_closing (line : Line) :
    isTerminator line.closing = true := by
  unfold Line.closing
  split_ifs <;> rfl

theorem isTerminator_trailing (line : Line) :
    ∀ t ∈ line.trailing, isTerminator t = true := by
  unfold Line.trailing
  split_ifs <;> simp [isTerminator]

theorem isTerminator_ending (line : Line) :
    ∀ t ∈ line.ending, isTerminator t = true := by
  rw [ending_eq]
  simp only [List.mem_cons, forall_eq_or_imp]
  exact ⟨isTerminator_closing line, isTerminator_trailing line⟩

theorem systemReadFd_terminator {t : Char} (ht : isTerminator t = true)
    (hasTimers : Bool) (bytes : List Char) :
    systemReadFd hasTimers (t :: bytes) = ([], bytes) := by
  rcases isTerminator_cases ht with rfl | rfl <;> rfl

/-- A command that a peripheral reads with its first terminator. -/
theorem reads_through {b : Bool} {commands : List Command} {id : Char}
    {body : List Char} (htext : line.command.text = id :: body)
    (hread : readFd b id (body ++ line.closing :: (line.trailing ++
      stream lines)) = some (commands, line.trailing ++ stream lines)) :
    Reads b line lines commands id (body ++ [line.closing]) line.trailing where
  text := by simp [Line.text, htext, ending_eq]
  terminators := isTerminator_trailing line
  result := by simpa using hread

/-- A command that a peripheral reads without its terminators. -/
theorem reads_up_to {b : Bool} {commands : List Command} {id : Char}
    {body : List Char} (htext : line.command.text = id :: body)
    (hread : readFd b id (body ++ (line.ending ++ stream lines)) =
      some (commands, line.ending ++ stream lines)) :
    Reads b line lines commands id body line.ending where
  text := by simp [Line.text, htext]
  terminators := isTerminator_ending line
  result := hread

/-- A command that both systems read without its terminators.  Without BiBo
the second switch reads one of these. -/
theorem reads_system {b : Bool} {commands : List Command} {body : List Char}
    (htext : line.command.text = 'O' :: body)
    (hsystem : ∀ hasTimers bytes,
      systemReadFd hasTimers (body ++ bytes) = (commands, bytes)) :
    ∃ read left, Reads b line lines commands 'O' read left := by
  cases b with
  | true =>
      refine ⟨_, _, reads_up_to htext ?_⟩
      simp only [readFd, biboReadFd, if_true, hsystem]
  | false =>
      refine ⟨_, _, reads_through htext ?_⟩
      simp only [readFd, biboReadFd, Bool.false_eq_true, if_false,
        brickosReadFd, hsystem,
        systemReadFd_terminator (isTerminator_closing line), List.append_nil]

/-- A command that both systems read with its first terminator.  Without BiBo
the second switch reads one character more. -/
theorem framed_iff_of_system {body : List Char}
    (htext : line.command.text = 'O' :: body)
    (hsystem : ∀ hasTimers bytes,
      systemReadFd hasTimers (body ++ line.closing :: bytes) =
        ([line.command], bytes)) :
    Framed (dispatch tdIdle (stream (line :: lines))) (line :: lines) ↔
      (idleAt tdIdle line lines = true ∨ line.carriage = true ∨ lines = []) ∧
        Framed (dispatch tdIdle (stream lines)) lines := by
  cases hidle : idleAt tdIdle line lines with
  | true =>
      have hreads : Reads (idleAt tdIdle line lines) line lines [line.command]
          'O' (body ++ [line.closing]) line.trailing := by
        apply reads_through htext
        simp only [hidle, readFd, biboReadFd, if_true, hsystem]
      rw [framed_cons_iff hreads]
      simp
  | false =>
      have hbibo : ∀ bytes, biboReadFd false (body ++ line.closing :: bytes) =
          ([line.command] ++ (systemReadFd true bytes).1,
            (systemReadFd true bytes).2) := by
        intro bytes
        simp only [biboReadFd, Bool.false_eq_true, if_false, brickosReadFd,
          hsystem]
      by_cases hcarriage : line.carriage = true
      · have hreads : Reads (idleAt tdIdle line lines) line lines
            [line.command] 'O' (body ++ line.ending) [] := by
          refine ⟨by simp [Line.text, htext], by simp, ?_⟩
          have hending : line.ending = [line.closing, '\n'] := by
            simp [Line.ending, Line.closing, hcarriage]
          have hlast := systemReadFd_terminator (t := '\n') rfl true
            (stream lines)
          simp only [hidle, readFd, hending, List.append_assoc,
            List.cons_append, List.nil_append, hbibo, hlast, List.append_nil]
        rw [framed_cons_iff hreads]
        simp [hcarriage]
      · have htrailing : line.trailing = [] := by
          simp [Line.trailing, hcarriage]
        have hline : line.text = 'O' :: (body ++ [line.closing]) := by
          simp [Line.text, htext, ending_eq, htrailing]
        have hread : readFd (idleAt tdIdle line lines) 'O'
            ((body ++ [line.closing]) ++ stream lines) =
            some ([line.command] ++ (systemReadFd true (stream lines)).1,
              (systemReadFd true (stream lines)).2) := by
          simp only [hidle, readFd, List.append_assoc, List.cons_append,
            List.nil_append, hbibo]
        cases lines with
        | nil =>
            have hreads : Reads (idleAt tdIdle line []) line []
                [line.command] 'O' (body ++ [line.closing]) [] :=
              ⟨by simpa using hline, by simp, hread⟩
            rw [framed_cons_iff hreads]
            simp
        | cons next lines =>
            have hnot := not_framed hline hread (by
              left
              obtain ⟨id, rest, hnext⟩ : ∃ id rest,
                  stream (next :: lines) = id :: rest := by
                apply List.exists_cons_of_ne_nil
                simp [stream, text_ne_nil next]
              rw [hnext, List.length_cons]
              exact Nat.lt_succ_of_le (systemReadFd_cons_length true id rest))
            simp [hnot, hcarriage]

theorem isTerminator_of_isDigit {c : Char} (hc : c.isDigit = true) :
    isTerminator c = false := by
  rw [Bool.eq_false_iff]
  intro ht
  rcases isTerminator_cases ht with rfl | rfl <;> cases hc

theorem framed_iff_of_reads
    (hcontained : line.Contained (idleAt tdIdle line lines) lines)
    (hreads : ∃ id read left, Reads (idleAt tdIdle line lines) line lines
      [line.command] id read left) :
    Framed (dispatch tdIdle (stream (line :: lines))) (line :: lines) ↔
      line.Contained (idleAt tdIdle line lines) lines ∧
        Framed (dispatch tdIdle (stream lines)) lines := by
  obtain ⟨id, read, left, hreads⟩ := hreads
  rw [framed_cons_iff hreads]
  simp [hcontained]

/-- A program size too long for the buffer. -/
theorem not_framed_newProgramAddr {slot : Char} {size : List Char}
    (hcommand : line.command = .newProgramAddr slot size)
    (hwf : line.command.WellFormed) (hlong : ADDR_BUFFER < size.length + 2) :
    ¬ Framed (dispatch tdIdle (stream (line :: lines))) (line :: lines) := by
  rw [hcommand] at hwf
  obtain ⟨hslot, -, hsize⟩ := hwf
  have hdigits : ∀ c ∈ slot :: size, isTerminator c = false := by
    intro c hc
    rcases List.mem_cons.mp hc with rfl | hmem
    · exact isTerminator_of_isDigit hslot
    · exact isTerminator_of_isDigit (hsize c hmem)
  have hfull := readBuffer_full (line.ending ++ stream lines) hdigits
    (show 0 < ADDR_BUFFER by decide)
    (show ADDR_BUFFER ≤ (slot :: size).length by
      rw [List.length_cons]
      omega)
  have hshort : Command.newProgramAddr slot (size.take 18) ≠ line.command := by
    rw [hcommand]
    intro heq
    have hlength := congrArg List.length (Command.newProgramAddr.inj heq).2
    rw [List.length_take] at hlength
    unfold ADDR_BUFFER at hlong
    omega
  have hsystem : ∀ hasTimers, ∃ rest, systemReadFd hasTimers
      ('A' :: slot :: (size ++ line.ending) ++ stream lines) =
        ([.newProgramAddr slot (size.take 18)], rest) := by
    intro hasTimers
    refine ⟨(slot :: size).drop ADDR_BUFFER ++ (line.ending ++ stream lines), ?_⟩
    simp only [List.cons_append, List.append_assoc] at hfull ⊢
    simp only [systemReadFd, newProgramAddr, whenRead, hfull]
    rfl
  have htext : line.text = 'O' :: 'A' :: slot :: (size ++ line.ending) := by
    simp [Line.text, hcommand, Command.text]
  cases hidle : idleAt tdIdle line lines with
  | true =>
      obtain ⟨rest, hrest⟩ := hsystem true
      have hread : readFd (idleAt tdIdle line lines) 'O'
          ('A' :: slot :: (size ++ line.ending) ++ stream lines) =
          some ([.newProgramAddr slot (size.take 18)], rest) := by
        rw [hidle, ← hrest]
        rfl
      exact not_framed htext hread (Or.inr ⟨_, rfl, hshort⟩)
  | false =>
      obtain ⟨rest, hrest⟩ := hsystem false
      have hread : readFd (idleAt tdIdle line lines) 'O'
          ('A' :: slot :: (size ++ line.ending) ++ stream lines) =
          some (.newProgramAddr slot (size.take 18) ::
            (systemReadFd true rest).1, (systemReadFd true rest).2) := by
        rw [hidle]
        simp only [readFd, biboReadFd, Bool.false_eq_true, if_false,
          brickosReadFd]
        rw [hrest]
        rfl
      exact not_framed htext hread (Or.inr ⟨_, rfl, hshort⟩)

theorem framed_newProgramAddr_iff {slot : Char} {size : List Char}
    (hcommand : line.command = .newProgramAddr slot size)
    (hwf : line.command.WellFormed) :
    Framed (dispatch tdIdle (stream (line :: lines))) (line :: lines) ↔
      line.Contained (idleAt tdIdle line lines) lines ∧
        Framed (dispatch tdIdle (stream lines)) lines := by
  by_cases hlong : ADDR_BUFFER < size.length + 2
  · have hnot := @not_framed_newProgramAddr tdIdle line lines slot size
      hcommand hwf hlong
    simp only [Line.Contained, hcommand, hnot, Nat.not_le.mpr hlong, false_and]
  · rw [hcommand] at hwf
    have hdigits : ∀ c ∈ slot :: size, isTerminator c = false := by
      intro c hc
      rcases List.mem_cons.mp hc with rfl | hmem
      · exact isTerminator_of_isDigit hwf.1
      · exact isTerminator_of_isDigit (hwf.2.2 c hmem)
    have hsystem : ∀ hasTimers bytes, systemReadFd hasTimers
        ('A' :: slot :: size ++ line.closing :: bytes) =
          ([line.command], bytes) := by
      intro hasTimers bytes
      have hline := readBuffer_append bytes hdigits (isTerminator_closing line)
        (show (slot :: size).length < ADDR_BUFFER by
          rw [List.length_cons]
          omega)
      simp only [List.cons_append] at hline ⊢
      simp only [systemReadFd, newProgramAddr, whenRead, hline, hcommand,
        List.headD_cons, List.tail_cons]
    rw [framed_iff_of_system (congrArg Command.text hcommand) hsystem]
    simp only [Line.Contained, hcommand, Nat.not_lt.mp hlong, true_and]

theorem framed_loadProgram_iff {slot : Char} {file : List Char}
    (hcommand : line.command = .loadProgram slot file)
    (hwf : line.command.WellFormed) :
    Framed (dispatch tdIdle (stream (line :: lines))) (line :: lines) ↔
      line.Contained (idleAt tdIdle line lines) lines ∧
        Framed (dispatch tdIdle (stream lines)) lines := by
  rw [hcommand] at hwf
  have hsystem : ∀ hasTimers bytes, systemReadFd hasTimers
      ('L' :: slot :: file ++ line.closing :: bytes) =
        ([line.command], bytes) := by
    intro hasTimers bytes
    have hline := readLine_append bytes (fun c hc => (hwf.2.2 c hc).1)
      (isTerminator_closing line)
    simp only [List.cons_append, systemReadFd, loadProgram, whenRead, hline,
      hcommand]
  rw [framed_iff_of_system (congrArg Command.text hcommand) hsystem]
  simp only [Line.Contained, hcommand]

theorem framed_dumpTimers_iff (hcommand : line.command = .dumpTimers) :
    Framed (dispatch tdIdle (stream (line :: lines))) (line :: lines) ↔
      line.Contained (idleAt tdIdle line lines) lines ∧
        Framed (dispatch tdIdle (stream lines)) lines := by
  cases hidle : idleAt tdIdle line lines with
  | true =>
      rw [← hidle]
      apply framed_iff_of_reads
      · simp only [Line.Contained, hcommand, hidle]
      · refine ⟨_, _, _, reads_up_to (congrArg Command.text hcommand) ?_⟩
        rw [hcommand, hidle]
        rfl
  | false =>
      have hbrickos : ∀ bytes, brickosReadFd ('C' :: bytes) = ([], bytes) :=
        fun _ => rfl
      have hreads : Reads (idleAt tdIdle line lines) line lines [] 'O'
          (['C'] ++ [line.closing]) line.trailing := by
        apply reads_through (congrArg Command.text hcommand)
        rw [hidle]
        simp only [readFd, biboReadFd, Bool.false_eq_true, if_false,
          List.cons_append, List.nil_append, hbrickos,
          systemReadFd_terminator (isTerminator_closing line)]
      rw [framed_cons_iff hreads]
      simp [Line.Contained, hcommand]

/-- The file is saved to again. -/
theorem not_framed_load {file : List Char} (hcommand : line.command = .load file)
    (hwf : line.command.WellFormed) :
    ¬ Framed (dispatch tdIdle (stream (line :: lines))) (line :: lines) := by
  rw [hcommand] at hwf
  have hline := readLine_append (line.trailing ++ stream lines)
    (fun c hc => (hwf.2 c hc).1) (isTerminator_closing line)
  have hreads : Reads (idleAt tdIdle line lines) line lines
      [.load file, .save file] 'C' ('L' :: file ++ [line.closing])
        line.trailing := by
    apply reads_through (congrArg Command.text hcommand)
    simp only [readFd, savefileReadFd, List.cons_append, hline]
    rfl
  rw [framed_cons_iff hreads]
  simp

/-- The first line is in order when it is contained. -/
theorem framed_line_iff (hwf : line.command.WellFormed) :
    Framed (dispatch tdIdle (stream (line :: lines))) (line :: lines) ↔
      line.Contained (idleAt tdIdle line lines) lines ∧
        Framed (dispatch tdIdle (stream lines)) lines := by
  cases hcommand : line.command with
  | sensor channel val₁ val₂ val₃ =>
      apply framed_iff_of_reads
      · simp only [Line.Contained, hcommand]
      · refine ⟨_, _, _, reads_through (congrArg Command.text hcommand) ?_⟩
        rw [hcommand]
        rfl
  | button name val =>
      apply framed_iff_of_reads
      · simp only [Line.Contained, hcommand]
      · refine ⟨_, _, _, reads_through (congrArg Command.text hcommand) ?_⟩
        rw [hcommand]
        rfl
  | reset | monitorPort =>
      apply framed_iff_of_reads
      · simp only [Line.Contained, hcommand]
      · refine ⟨_, _, _, reads_up_to (congrArg Command.text hcommand) ?_⟩
        rw [hcommand]
        rfl
  | firmware file =>
      rw [hcommand] at hwf
      have hline := readLine_append (line.trailing ++ stream lines)
        (fun c hc => (hwf.2 c hc).1) (isTerminator_closing line)
      apply framed_iff_of_reads
      · simp only [Line.Contained, hcommand]
      · refine ⟨_, _, _, reads_through (congrArg Command.text hcommand) ?_⟩
        simp only [readFd, firmReadFd, hline, hcommand]
        rfl
  | save file =>
      rw [hcommand] at hwf
      have hline := readLine_append (line.trailing ++ stream lines)
        (fun c hc => (hwf.2 c hc).1) (isTerminator_closing line)
      apply framed_iff_of_reads
      · simp only [Line.Contained, hcommand]
      · refine ⟨_, _, _, reads_through (congrArg Command.text hcommand) ?_⟩
        simp only [readFd, savefileReadFd, List.cons_append, hline, hcommand]
        rfl
  | load file =>
      have hnot := @not_framed_load tdIdle line lines file hcommand hwf
      simp only [Line.Contained, hcommand, hnot, false_and]
  | dumpMemory | dumpPrograms | dumpThreads | checkOs =>
      apply framed_iff_of_reads
      · simp only [Line.Contained, hcommand]
      · refine ⟨_, reads_system (congrArg Command.text hcommand) ?_⟩
        intro hasTimers bytes
        rw [hcommand]
        rfl
  | hostAddr addr =>
      apply framed_iff_of_reads
      · simp only [Line.Contained, hcommand]
      · refine ⟨_, reads_system (congrArg Command.text hcommand) ?_⟩
        intro hasTimers bytes
        rw [hcommand]
        rfl
  | dumpTimers => exact framed_dumpTimers_iff hcommand
  | newProgramAddr slot size => exact framed_newProgramAddr_iff hcommand hwf
  | loadProgram slot file => exact framed_loadProgram_iff hcommand hwf

end Lines

/-- The lines are carried out one after the other exactly when each is
contained. -/
theorem framed_iff (tdIdle : ℕ → Bool) (lines : List Line)
    (hwf : ∀ line ∈ lines, line.command.WellFormed) :
    Framed (dispatch tdIdle (stream lines)) lines ↔
      Contained tdIdle lines := by
  induction lines with
  | nil => simp [Framed, Contained, stream, dispatch, passes]
  | cons line lines ih =>
      have hfirst : line.command.WellFormed := hwf line (by simp)
      have hrest := ih fun line' hmem => hwf line' (by simp [hmem])
      rw [framed_line_iff hfirst, hrest]
      rfl

/-- The address of a program and a sensor, without BiBo. -/
def addrThenSensor (carriage : Bool) : List Line :=
  [⟨.newProgramAddr '0' ['1', '2', '3'], carriage⟩,
    ⟨.sensor '5' '3' 'f' 'f', carriage⟩]

theorem wellFormed_addrThenSensor (carriage : Bool) :
    ∀ line ∈ addrThenSensor carriage, line.command.WellFormed := by
  intro line hline
  simp only [addrThenSensor, List.mem_cons, List.not_mem_nil, or_false] at hline
  rcases hline with rfl | rfl
  · refine ⟨by decide, by decide, fun c hc => ?_⟩
    simp only [List.mem_cons, List.not_mem_nil, or_false] at hc
    rcases hc with rfl | rfl | rfl <;> decide
  · exact ⟨by decide, by decide, by decide, by decide⟩

theorem framed_iff_addrThenSensor :
    Framed (dispatch (fun _ => false) (stream (addrThenSensor true)))
      (addrThenSensor true) := by
  apply (framed_iff _ _ (wellFormed_addrThenSensor true)).mpr
  refine ⟨⟨by decide, Or.inr (Or.inl rfl)⟩, trivial, trivial⟩

/-- The second switch takes the id of the sensors for a command of its own. -/
theorem addr_reads_sensor :
    ¬ ∀ tdIdle lines, (∀ line ∈ lines, line.command.WellFormed) →
      Framed (dispatch tdIdle (stream lines)) lines := by
  intro hframed
  have h := hframed (fun _ => false) (addrThenSensor false)
    (wellFormed_addrThenSensor false)
  have hcontained := ((framed_line_iff
    (wellFormed_addrThenSensor false _ (List.mem_cons_self ..))).mp h).1
  rcases hcontained.2 with hidle | hcarriage | hlast
  · cases hidle
  · cases hcarriage
  · cases hlast

end Gui

end BrickEmu
