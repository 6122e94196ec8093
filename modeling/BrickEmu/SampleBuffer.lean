import BrickEmu.HostInteger
import BrickEmu.Ring

/-!
# The sample buffer of the SDL sound

`sound_update` turns durations into samples and stores them in a ring;
`sound_send_samples` copies samples from the ring to the audio device.  The
size of a copy is a number of samples, and `memcpy` takes it as a number of
bytes.  The host stores the low byte of a sample first.
-/

namespace BrickEmu

abbrev Sample := BitVec 16

def SAMPLE_RATE : ℕ := 48000
def CYCLES_PER_SEC_DIV_50 : ℕ := 16 * 1000000 / 50
def DECAY : ℤ := 0xf400
def AMPLITUDE : ℤ := (0x10000 - DECAY) / 16
def BRICK_SILENCE_LEVEL_POS : ℤ := 4075
def BRICK_SILENCE_LEVEL_NEG : ℤ := -4096
def BUFFER_LENGTH : ℕ := 40960

/-- The static variables; `incr` is the one of `sound_update`. -/
structure SdlSound where
  sampleBuffer : ℕ → Sample
  sampleStart : ℕ
  sampleEnd : ℕ
  sampleLevel : Sample
  incr : ℕ
  sdlSilenceLevel : Sample

def soundInit (silence : Sample) : SdlSound :=
  ⟨fun _ => 0, 0, 0, 0, 0, silence⟩

section Producer

def soundOutput (bit : Bool) : ℤ :=
  if bit then AMPLITUDE else -AMPLITUDE

def nextLevel (output level : ℤ) : ℤ :=
  level * DECAY / 2 ^ 16 + output

def isSoundSilent (output level : ℤ) : Bool :=
  if AMPLITUDE = output then BRICK_SILENCE_LEVEL_POS ≠ nextLevel output level
  else if -AMPLITUDE = output then
    BRICK_SILENCE_LEVEL_NEG ≠ nextLevel output level
  else false

/-- The variables of the loops of `sound_update`, with the samples stored and
whether an overflow was found. -/
structure Filling where
  buffer : ℕ → Sample
  ptr : ℕ
  level : ℤ
  incr : ℕ
  stored : List Sample
  overflow : Bool

namespace Filling

/-- The body of the loop that stores. -/
def put (output : ℤ) (f : Filling) : Filling :=
  let level := nextLevel output f.level
  { f with
    buffer := Function.update f.buffer f.ptr (BitVec.ofInt 16 level)
    ptr := f.ptr + 1
    level := level
    incr := f.incr - CYCLES_PER_SEC_DIV_50
    stored := f.stored ++ [BitVec.ofInt 16 level] }

def store (output : ℤ) : ℕ → Filling → Filling
  | 0, f => f
  | len + 1, f =>
      if CYCLES_PER_SEC_DIV_50 < f.incr then store output len (f.put output)
      else f

/-- The loop that lets the time pass. -/
def skip : ℕ → Filling → Filling
  | 0, f => f
  | len + 1, f =>
      if CYCLES_PER_SEC_DIV_50 < f.incr then
        skip len { f with incr := f.incr - CYCLES_PER_SEC_DIV_50 }
      else f

/-- The slots that may be filled before the end of the buffer. -/
def len (start : ℕ) (f : Filling) : ℕ :=
  if f.ptr < start then start - f.ptr - 1 else BUFFER_LENGTH - f.ptr

/-- Behind the last slot comes the first one. -/
def wrap (f : Filling) : Filling :=
  if f.ptr = BUFFER_LENGTH then { f with ptr := 0 } else f

/-- One pass of the outer loop. -/
def pass (start : ℕ) (output : ℤ) (f : Filling) : Filling :=
  let len := f.len start
  let f := if len = 0 then { f with incr := 0, overflow := true } else f
  wrap (if isSoundSilent output f.level then store output len f
    else skip len f)

theorem store_incr_le (output : ℤ) (len : ℕ) (f : Filling) :
    (store output len f).incr ≤ f.incr := by
  induction len generalizing f with
  | zero => exact le_rfl
  | succ len ih =>
      rw [store]
      split_ifs
      · exact (ih _).trans (Nat.sub_le _ _)
      · exact le_rfl

theorem skip_incr_le (len : ℕ) (f : Filling) :
    (skip len f).incr ≤ f.incr := by
  induction len generalizing f with
  | zero => exact le_rfl
  | succ len ih =>
      rw [skip]
      split_ifs
      · exact (ih _).trans (Nat.sub_le _ _)
      · exact le_rfl

/-- Every pass takes time away, or all of it after an overflow. -/
theorem pass_incr_lt {start : ℕ} {output : ℤ} {f : Filling}
    (hincr : CYCLES_PER_SEC_DIV_50 < f.incr) :
    (f.pass start output).incr < f.incr := by
  have hunit : 0 < CYCLES_PER_SEC_DIV_50 := by decide
  have hwrap (f : Filling) : f.wrap.incr = f.incr := by
    rw [wrap]
    split_ifs <;> rfl
  rw [pass, hwrap]
  cases f.len start with
  | zero =>
      rw [if_pos rfl]
      split_ifs
      · exact hunit.trans hincr
      · exact hunit.trans hincr
  | succ len =>
      rw [if_neg (Nat.succ_ne_zero len)]
      split_ifs
      · rw [store, if_pos hincr]
        exact (store_incr_le _ _ _).trans_lt
          (Nat.sub_lt (hunit.trans hincr) hunit)
      · rw [skip, if_pos hincr]
        exact (skip_incr_le _ _).trans_lt (Nat.sub_lt (hunit.trans hincr) hunit)

/-- The outer loop. -/
def run (start : ℕ) (output : ℤ) (f : Filling) : Filling :=
  if CYCLES_PER_SEC_DIV_50 < f.incr then run start output (f.pass start output)
  else f
termination_by f.incr
decreasing_by exact pass_incr_lt ‹_›

end Filling

/-- The time not yet turned into samples, a new duration included. -/
def SdlSound.elapsed (newIncr : BitVec 32) (s : SdlSound) : ℕ :=
  (s.incr + newIncr.toNat * (SAMPLE_RATE / 50)) % 2 ^ 32

/-- The sound afterwards, the samples stored and whether there was an
overflow. -/
def soundUpdate (bit : Bool) (newIncr : BitVec 32) (s : SdlSound) :
    SdlSound × List Sample × Bool :=
  let incr := s.elapsed newIncr
  if incr < CYCLES_PER_SEC_DIV_50 then ({ s with incr := incr }, [], false)
  else
    let f := Filling.run s.sampleStart (soundOutput bit)
      ⟨s.sampleBuffer, s.sampleEnd, s.sampleLevel.toInt, incr, [], false⟩
    ({ s with
        sampleBuffer := f.buffer
        sampleEnd := f.ptr
        sampleLevel := BitVec.ofInt 16 f.level
        incr := f.incr },
      f.stored, f.overflow)

end Producer

section Consumer

def sampleBytes (sample : Sample) : List Byte :=
  [sample.extractLsb' 0 8, sample.extractLsb' 8 8]

/-- The buffer as `memcpy` sees it. -/
def bufferByte (buffer : ℕ → Sample) (i : ℕ) : Byte :=
  if i % 2 = 0 then (buffer (i / 2)).extractLsb' 0 8
  else (buffer (i / 2)).extractLsb' 8 8

/-- The bytes that `memcpy` takes from the place of a sample. -/
def copiedBytes (buffer : ℕ → Sample) (ptr size : ℕ) : List Byte :=
  (List.range size).map fun i => bufferByte buffer (2 * ptr + i)

/-- The device with bytes written from an address on. -/
def placeBytes (data : ℕ → Byte) (dest : ℕ) (bytes : List Byte) :
    ℕ → Byte :=
  fun i =>
    if dest ≤ i then (bytes[i - dest]?).getD (data i) else data i

/-- The buffer of the audio device afterwards, the bytes copied to it from the
sample buffer, in order, and the sound. -/
def soundSendSamples (data : ℕ → Byte) (len8 : ℕ) (s : SdlSound) :
    (ℕ → Byte) × List Byte × SdlSound :=
  let sEnd := s.sampleEnd
  let len16 := len8 / 2
  -- up to the end of the buffer
  let size := if sEnd < s.sampleStart then
    min (BUFFER_LENGTH - s.sampleStart) len16 else 0
  let first := copiedBytes s.sampleBuffer s.sampleStart size
  let sStart := if sEnd < s.sampleStart then
    (s.sampleStart + size) % BUFFER_LENGTH else s.sampleStart
  let rest := len16 - size
  -- from there to the last sample
  let size' := if 0 < rest ∧ 0 < uint32 ((sEnd : ℤ) - sStart) then
    min (uint32 ((sEnd : ℤ) - sStart)) rest else 0
  let second := copiedBytes s.sampleBuffer sStart size'
  let data := placeBytes (placeBytes data 0 first) (2 * size) second
  let silence := (List.replicate (rest - size')
    (sampleBytes s.sdlSilenceLevel)).flatten
  (placeBytes data (2 * (size + size')) silence, first ++ second,
    { s with sampleStart := sStart + size' })

end Consumer

end BrickEmu
